import MiniFs.Lib.Dialogue
import MiniFs.Theorems.Numeral

/-! # Messages

What the functions of the buffered socket do in a session, and the strings that they build in the buffer. -/

namespace MiniFs
open Interact Memory

/-! ## Messages -/

section
variable {S : Sig} {σ : Type} {X : Sem S σ} {α : Type} {t : σ} {A : Session}

theorem length_packet (s : Str) : (packet s).length = s.length + 1 := by simp [packet]

theorem packet_ne_nil (m : Str) : packet m ≠ [] := List.append_ne_nil_of_right_ne_nil _ (List.cons_ne_nil _ _)

theorem sendMsg_talk {s : Str} {Q : Unit → σ × Session → Prop} (hs : s.length < bufferSize) (h : Q () (t, A)) :
    wp X.talk (sendMsg s) Q (t, .say (packet s) A) := by
  unfold sendMsg
  rw [List.take_of_length_le (by omega)]
  exact wp_talk_say (wp_ret.mpr h)

theorem sendStr_talk {s : Str} {Q : Unit → σ × Session → Prop} (h : Q () (t, A)) :
    wp X.talk (sendStr s) Q (t, .say (packet s) A) := wp_talk_say (wp_ret.mpr h)

theorem getMsg_packet {s : Str} (hs : NulFree s) :
    (if (packet s).getLast? = some 0 then some ((packet s).takeWhile (· != 0)) else none) = some s := by
  rw [packet, List.getLast?_append, if_pos (by simp), takeWhile_nul hs]

theorem getMsg_talk {s : Str} {Q : Option Str → σ × Session → Prop} (hs : NulFree s) (hl : s.length < bufferSize - 1)
    (h : Q (some s) (t, A)) : wp X.talk getMsg Q (t, .hear (packet s) A) := by
  refine wp_talk_hear (by rw [length_packet]; omega) ?_
  rw [getMsg_packet hs]
  exact wp_ret.mpr h

theorem getMsgStr_talk {s : Str} {Q : Str → σ × Session → Prop} (hs : NulFree s) (hl : s.length < bufferSize - 1)
    (h : Q s (t, A)) : wp X.talk getMsgStr Q (t, .hear (packet s) A) :=
  wp_bind.mpr (getMsg_talk hs hl (wp_ret.mpr h))

theorem sendData_talk {m : Msg} {Q : Int → σ × Session → Prop} (hm : m.length ≤ bufferSize) (h : Q m.length (t, A)) :
    wp X.talk (sendData m) Q (t, .say m A) := by
  unfold sendData
  rw [if_neg (by omega)]
  exact wp_talk_say (wp_ret.mpr h)

theorem getData_talk {len : Int} {m : Msg} {Q : List Byte → σ × Session → Prop} (hm : m.length ≤ bufferSize)
    (hl : (m.length : Int) ≤ len) (h : Q m (t, A)) : wp X.talk (getData len) Q (t, .hear m A) := by
  unfold getData
  exact wp_talk_hear (by omega) (wp_ret.mpr h)

end

/-! ## The buffer -/

theorem catStr_eq {buffer str : Str} (h : buffer.length + str.length < bufferSize) : catStr buffer str = buffer ++ str := by
  unfold catStr
  rw [List.take_of_length_le (by omega)]

theorem itoa_some {val : Int} (str : Str) (h : val ≠ -2 ^ 63) : ∃ w, itoa str val = some (str ++ w) ∧ w.length ≤ 21 := by
  refine ⟨_, itoa_eq str h, ?_⟩
  have hsign : (if val < 0 then lit "-" else []).length ≤ 1 := by
    split
    · exact Nat.le_refl _
    · exact Nat.zero_le _
  have hdigits : (numeral val.natAbs).length ≤ 20 := by
    unfold numeral
    split
    · decide
    · rw [List.length_reverse]
      exact length_digs_le 20 val.natAbs
  rw [List.length_append]
  omega

theorem catInt_some {buffer : Str} {val : Int} (h : val ≠ -2 ^ 63) (hlen : buffer.length + 21 < bufferSize) :
    ∃ w, catInt buffer val = some (buffer ++ w) ∧ w.length ≤ 21 := by
  obtain ⟨w, hw, hwlen⟩ := itoa_some buffer h
  refine ⟨w, ?_, hwlen⟩
  unfold catInt
  rw [hw]
  dsimp only
  rw [if_pos (by rw [List.length_append]; omega)]

/-! ## Exchanges -/

/-- `EXPECT` and an answer, for each of the answers. -/
def exchanges (answers : List (Msg → Prop)) (A : Session) : Session :=
  answers.foldr (fun answer A => .hear (packet (lit "EXPECT")) (.send answer fun _ => A)) A

section
variable {S : Sig} {σ : Type} {X : Sem S σ} {t : σ} {A : Session}

theorem getExpect_talk {Q : Str → σ × Session → Prop} (h : Q (lit "EXPECT") (t, A)) :
    wp X.talk getMsgStr Q (t, .hear (packet (lit "EXPECT")) A) := getMsgStr_talk (by decide) (by decide) h

theorem sendStr_answer {s : Str} {answer : Msg → Prop} {Q : Unit → σ × Session → Prop} (hs : answer (packet s))
    (h : Q () (t, A)) :
    wp X.talk (sendStr s) Q (t, .send answer fun _ => A) := wp_talk_write.mpr ⟨_, _, rfl, hs, wp_ret.mpr h⟩

end

end MiniFs
