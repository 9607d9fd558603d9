import MiniFs.Lib.Dialogue

/-! # The messages that a program writes

What is true of every message of a program, whatever it reads and whatever its operations answer, is true of its messages
in every session: a session that the program follows may promise it to the other party (`Prog.Sends.talk`). -/

namespace Interact

/-- Each message of the party is also one of `W`. -/
def Session.also (W : Msg → Prop) : Session → Session
  | done => done
  | send P k => send (fun m => P m ∧ W m) fun m => (k m).also W
  | recv P k => recv P fun m => (k m).also W

@[simp] theorem Session.also_done {W : Msg → Prop} : Session.done.also W = .done := rfl
@[simp] theorem Session.also_hear {W : Msg → Prop} (m : Msg) (A : Session) : (hear m A).also W = hear m (A.also W) := rfl

section
variable {S : Sig} {α β σ : Type} {W : Msg → Prop}

/-- All messages of the program are of `W`, and what it returns is as `Q` says. -/
def Prog.Sends (W : Msg → Prop) : Prog S α → (α → Prop) → Prop
  | .ret a, Q => Q a
  | .fault, _ => True
  | .op _ k, Q => ∀ r, (k r).Sends W Q
  | .write m k, Q => W m ∧ k.Sends W Q
  | .read _ k, Q => ∀ m, (k m).Sends W Q

theorem Prog.Sends.seq {p : Prog S α} {f : α → Prog S β} {R : α → Prop} {Q : β → Prop} (hp : p.Sends W R)
    (hf : ∀ a, R a → (f a).Sends W Q) : (p >>= f).Sends W Q := by
  induction p with
  | ret a => exact hf a hp
  | fault => trivial
  | op e k ih => exact fun r => ih r (hp r)
  | write m k ih => exact ⟨hp.1, ih hp.2⟩
  | read n k ih => exact fun m => ih m (hp m)

theorem Prog.Sends.mono {p : Prog S α} {Q Q' : α → Prop} (h : p.Sends W Q) (hQ : ∀ a, Q a → Q' a) : p.Sends W Q' := by
  induction p with
  | ret a => exact hQ a h
  | fault => trivial
  | op e k ih => exact fun r => ih r (h r)
  | write m k ih => exact ⟨h.1, ih h.2⟩
  | read n k ih => exact fun m => ih m (h m)

/-- A program that follows a session follows the one that says more of its messages. -/
theorem Prog.Sends.talk {X : Sem S σ} {p : Prog S α} {R : α → Prop} {Q : α → σ × Session → Prop} {s : σ} {A : Session}
    (hp : p.Sends W R) (h : wp X.talk p Q (s, A)) :
    wp X.talk p (fun a u => R a ∧ ∃ B, u.2 = B.also W ∧ Q a (u.1, B)) (s, A.also W) := by
  induction p generalizing s A with
  | ret a => exact wp_ret.mpr ⟨hp, A, rfl, wp_ret.mp h⟩
  | fault => exact (wp_fault.mp h).elim
  | op e k ih =>
    refine wp_talk_op.mpr fun o ho => ?_
    obtain ⟨r, s', heq, hk⟩ := wp_talk_op.mp h o ho
    exact ⟨r, s', heq, ih r (hp r) hk⟩
  | write m k ih =>
    obtain ⟨P, f, rfl, hm, hk⟩ := wp_talk_write.mp h
    exact wp_talk_write.mpr ⟨_, _, rfl, ⟨hm, hp.1⟩, ih hp.2 hk⟩
  | read n k ih =>
    obtain ⟨P, f, rfl, hk⟩ := wp_talk_read.mp h
    refine wp_talk_read.mpr ⟨_, _, rfl, fun m hm => ?_⟩
    obtain ⟨hlen, hk⟩ := hk m hm
    exact ⟨hlen, ih m (hp m) hk⟩

end

end Interact
