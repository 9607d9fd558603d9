import MiniFs.Lib.Prog

/-! # Programs in lock step

Two programs are in lock step when they perform the same operations and exchange the same messages up to their ends. A
program with a state of its own follows one without when it is in lock step with it from this state (`Tracks`), so that
what it does to its own memory can neither be seen from outside nor stop it. -/

namespace Interact

section
variable {S : Sig} {α β γ δ σ : Type} {R : α → β → Prop} {R' : γ → δ → Prop}

/-- The same operations and messages, and related results; where one program has undefined behaviour, so has the other. -/
inductive Lock (R : α → β → Prop) : Prog S α → Prog S β → Prop
  | ret {a b} : R a b → Lock R (.ret a) (.ret b)
  | fault : Lock R .fault .fault
  | op {e k k'} : (∀ r, Lock R (k r) (k' r)) → Lock R (.op e k) (.op e k')
  | write {m k k'} : Lock R k k' → Lock R (.write m k) (.write m k')
  | read {n k k'} : (∀ m, Lock R (k m) (k' m)) → Lock R (.read n k) (.read n k')

theorem Lock.refl {R : α → α → Prop} (h : ∀ a, R a a) (p : Prog S α) : Lock R p p := by
  induction p with
  | ret a => exact .ret (h a)
  | fault => exact .fault
  | op e k ih => exact .op ih
  | write m k ih => exact .write ih
  | read n k ih => exact .read ih

theorem Lock.mono {Q : α → β → Prop} {p : Prog S α} {q : Prog S β} (h : Lock R p q) (hQ : ∀ a b, R a b → Q a b) :
    Lock Q p q := by
  induction h with
  | ret hr => exact .ret (hQ _ _ hr)
  | fault => exact .fault
  | op _ ih => exact .op ih
  | write _ ih => exact .write ih
  | read _ ih => exact .read ih

theorem Lock.seq {p : Prog S α} {q : Prog S β} {f : α → Prog S γ} {g : β → Prog S δ} (h : Lock R p q)
    (hf : ∀ a b, R a b → Lock R' (f a) (g b)) : Lock R' (p >>= f) (q >>= g) := by
  induction h with
  | ret hr => exact hf _ _ hr
  | fault => exact .fault
  | op _ ih => exact .op ih
  | write _ ih => exact .write ih
  | read _ ih => exact .read ih

theorem Lock.symm {p : Prog S α} {q : Prog S β} (h : Lock R p q) : Lock (fun b a => R a b) q p := by
  induction h with
  | ret hr => exact .ret hr
  | fault => exact .fault
  | op _ ih => exact .op ih
  | write _ ih => exact .write ih
  | read _ ih => exact .read ih

/-- A run of one program is a run of the other one. -/
theorem Lock.runs {X : Sem S σ} {p : Prog S α} {q : Prog S β} {s : σ} {o : Option (α × σ)} (h : Lock R p q)
    (hr : Runs X p s o) :
    (o = none ∧ Runs X q s none) ∨ ∃ a b t, o = some (a, t) ∧ R a b ∧ Runs X q s (some (b, t)) := by
  induction h generalizing s with
  | @ret a b hab =>
    cases hr
    exact Or.inr ⟨a, b, s, rfl, hab, .ret⟩
  | fault =>
    cases hr
    exact Or.inl ⟨rfl, .fault⟩
  | op _ ih =>
    cases hr with
    | op hx hr =>
      rcases ih _ hr with ⟨rfl, hn⟩ | ⟨a, b, t, rfl, hab, hb⟩
      · exact Or.inl ⟨rfl, .op hx hn⟩
      · exact Or.inr ⟨a, b, t, rfl, hab, .op hx hb⟩
    | opFault hx => exact Or.inl ⟨rfl, .opFault hx⟩
  | write _ ih =>
    cases hr with
    | write hx hr =>
      rcases ih hr with ⟨rfl, hn⟩ | ⟨a, b, t, rfl, hab, hb⟩
      · exact Or.inl ⟨rfl, .write hx hn⟩
      · exact Or.inr ⟨a, b, t, rfl, hab, .write hx hb⟩
    | writeFault hx => exact Or.inl ⟨rfl, .writeFault hx⟩
  | read _ ih =>
    cases hr with
    | read hx hr =>
      rcases ih _ hr with ⟨rfl, hn⟩ | ⟨a, b, t, rfl, hab, hb⟩
      · exact Or.inl ⟨rfl, .read hx hn⟩
      · exact Or.inr ⟨a, b, t, rfl, hab, .read hx hb⟩
    | readFault hx => exact Or.inl ⟨rfl, .readFault hx⟩

end

/-! ## A program with a state of its own -/

section
variable {S : Sig} {α β γ δ μ : Type} {w w' : μ} {R : α → μ → β → Prop} {R' : γ → μ → δ → Prop}

/-- From the state `w` the program `m` does what `p` does, and ends in a state and with a result as `R` says. -/
def Tracks (m : StateT μ (Prog S) α) (p : Prog S β) (w : μ) (R : α → μ → β → Prop) : Prop :=
  Lock (fun r b => R r.1 r.2 b) (m w) p

theorem Tracks.ret {a : α} {b : β} (h : R a w b) : Tracks (pure a) (.ret b : Prog S β) w R := Lock.ret h

theorem Tracks.mono {Q : α → μ → β → Prop} {m : StateT μ (Prog S) α} {p : Prog S β} (h : Tracks m p w R)
    (hQ : ∀ a w' b, R a w' b → Q a w' b) : Tracks m p w Q := Lock.mono h fun _ _ => hQ _ _ _

theorem Tracks.seq {m : StateT μ (Prog S) α} {p : Prog S β} {f : α → StateT μ (Prog S) γ} {g : β → Prog S δ}
    (h : Tracks m p w R) (hf : ∀ a w' b, R a w' b → Tracks (f a) (g b) w' R') : Tracks (m >>= f) (p >>= g) w R' :=
  Lock.seq h fun _ _ hr => hf _ _ _ hr

theorem Tracks.ite {c : Prop} [Decidable c] {m m' : StateT μ (Prog S) α} {p p' : Prog S β} (h : c → Tracks m p w R)
    (h' : ¬c → Tracks m' p' w R) : Tracks (if c then m else m') (if c then p else p') w R := by
  by_cases hc : c
  · rw [if_pos hc, if_pos hc]
    exact h hc
  · rw [if_neg hc, if_neg hc]
    exact h' hc

/-- A step that only the program with the state takes. -/
theorem bind_of_ret {a : α} {m : StateT μ (Prog S) α} {f : α → StateT μ (Prog S) γ} (h : m w = .ret (a, w')) :
    (m >>= f) w = f a w' := by
  show (m w >>= fun r => f r.1 r.2) = _
  rw [h]
  rfl

theorem Tracks.step {a : α} {m : StateT μ (Prog S) α} {p : Prog S δ} {f : α → StateT μ (Prog S) γ} (h : m w = .ret (a, w'))
    (hf : Tracks (f a) p w' R') : Tracks (m >>= f) p w R' := by
  unfold Tracks
  rw [bind_of_ret h]
  exact hf

/-- A part that both have in common. -/
theorem Tracks.lift {p : Prog S α} {f : α → StateT μ (Prog S) γ} {g : α → Prog S δ} (hf : ∀ a, Tracks (f a) (g a) w R') :
    Tracks (liftM p >>= f) (p >>= g) w R' := by
  have h : Tracks (liftM p : StateT μ (Prog S) α) p w fun a w' b => a = b ∧ w' = w := by
    have hp : (liftM p : StateT μ (Prog S) α) w = p >>= fun a => .ret (a, w) := rfl
    show Lock _ ((liftM p : StateT μ (Prog S) α) w) p
    rw [hp]
    conv => rhs; rw [← Prog.bind_ret p]
    exact (Lock.refl (fun a => Eq.refl a) p).seq fun a b hab => .ret ⟨hab, rfl⟩
  exact h.seq fun a w' b hab => by
    obtain ⟨rfl, rfl⟩ := hab
    exact hf a

/-! ## Rules for a program with a state of its own -/

theorem wp_stateBind {σ : Type} {X : Sem S σ} {m : StateT μ (Prog S) α} {f : α → StateT μ (Prog S) γ} {Q : γ × μ → σ → Prop}
    {s : σ} : wp X ((m >>= f) w) Q s ↔ wp X (m w) (fun r => wp X (f r.1 r.2) Q) s := wp_bind

theorem wp_stateLift {σ : Type} {X : Sem S σ} {p : Prog S α} {f : α → StateT μ (Prog S) γ} {Q : γ × μ → σ → Prop} {s : σ} :
    wp X ((liftM p >>= f) w) Q s ↔ wp X p (fun a => wp X (f a w) Q) s := by
  have hlift : (liftM p >>= f) w = p >>= fun a => f a w := by
    show ((p >>= fun a => .ret (a, w)) >>= fun r => f r.1 r.2) = _
    rw [Prog.bind_assoc]
    rfl
  rw [hlift]
  exact wp_bind

end

end Interact
