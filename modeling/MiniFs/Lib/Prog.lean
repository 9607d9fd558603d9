import Mathlib.Logic.Basic

/-! # Programs as trees of operations

A program performs operations of a signature on some state that it does not see, and exchanges
messages over one channel. What the operations and the channel do is a `Sem`: a relation between an
operation, the state before it and its possible outcomes, where the outcome `none` is undefined
behaviour. The runs of a program under a semantics are a relation (`Runs`); `wp` is the predicate
transformer that says what every run ends in, and `wp_iff_runs` ties the two. -/

namespace Interact

/-- A message, or the bytes that one read or write of a channel moves. -/
abbrev Msg := List UInt8

/-- The operations of a program, each with the type of its answer. -/
structure Sig where
  Op : Type
  Ans : Op → Type

/-- A program that returns an `α`. The constructor `fault` is undefined behaviour: nothing is known of
    what follows. -/
inductive Prog (S : Sig) (α : Type) : Type where
  | ret (a : α)
  | fault
  | op (e : S.Op) (k : S.Ans e → Prog S α)
  | write (m : Msg) (k : Prog S α)
  | read (n : Nat) (k : Msg → Prog S α)

namespace Prog
variable {S : Sig} {α β γ σ : Type}

/-- Run `p`, then `f` on what it returns. -/
def bind : Prog S α → (α → Prog S β) → Prog S β
  | ret a, f => f a
  | fault, _ => fault
  | op e k, f => op e fun r => (k r).bind f
  | write m k, f => write m (k.bind f)
  | read n k, f => read n fun m => (k m).bind f

instance : Monad (Prog S) where
  pure := ret
  bind := bind

@[simp] theorem pure_eq (a : α) : (pure a : Prog S α) = ret a := rfl
@[simp] theorem ret_bind (a : α) (f : α → Prog S β) : (ret a >>= f) = f a := rfl
@[simp] theorem fault_bind (f : α → Prog S β) : ((fault : Prog S α) >>= f) = fault := rfl
@[simp] theorem op_bind (e : S.Op) (k : S.Ans e → Prog S α) (f : α → Prog S β) :
    (op e k >>= f) = op e fun r => k r >>= f := rfl
@[simp] theorem write_bind (m : Msg) (k : Prog S α) (f : α → Prog S β) :
    (write m k >>= f) = write m (k >>= f) := rfl
@[simp] theorem read_bind (n : Nat) (k : Msg → Prog S α) (f : α → Prog S β) :
    (read n k >>= f) = read n fun m => k m >>= f := rfl

theorem bind_ret (p : Prog S α) : (p >>= ret) = p := by
  induction p with
  | ret a => rfl
  | fault => rfl
  | op e k ih => simp [ih]
  | write m k ih => simp [ih]
  | read n k ih => simp [ih]

theorem bind_assoc (p : Prog S α) (f : α → Prog S β) (g : β → Prog S γ) :
    (p >>= f >>= g) = p >>= fun a => f a >>= g := by
  induction p with
  | ret a => rfl
  | fault => rfl
  | op e k ih => simp [ih]
  | write m k ih => simp [ih]
  | read n k ih => simp [ih]

instance : LawfulMonad (Prog S) := LawfulMonad.mk' (Prog S) bind_ret (fun _ _ => rfl) bind_assoc

end Prog

/-! ## Semantics and runs -/

/-- What operations, writes and reads do on a state `σ`: their possible outcomes, `none` for undefined
    behaviour. -/
structure Sem (S : Sig) (σ : Type) where
  op : (e : S.Op) → σ → Option (S.Ans e × σ) → Prop
  write : Msg → σ → Option σ → Prop
  read : Nat → σ → Option (Msg × σ) → Prop

section
variable {S : Sig} {α β σ τ γ : Type}

/-- The outcomes of the complete runs of a program from a state. -/
inductive Runs (X : Sem S σ) : Prog S α → σ → Option (α × σ) → Prop
  | ret {a s} : Runs X (.ret a) s (some (a, s))
  | fault {s} : Runs X .fault s none
  | op {e k s r s' o} : X.op e s (some (r, s')) → Runs X (k r) s' o → Runs X (.op e k) s o
  | opFault {e k s} : X.op e s none → Runs X (.op e k) s none
  | write {m k s s' o} : X.write m s (some s') → Runs X k s' o → Runs X (.write m k) s o
  | writeFault {m k s} : X.write m s none → Runs X (.write m k) s none
  | read {n k s m s' o} : X.read n s (some (m, s')) → Runs X (k m) s' o → Runs X (.read n k) s o
  | readFault {n k s} : X.read n s none → Runs X (.read n k) s none

/-- Every run of the program from the state returns, and `Q` holds of what it returns. -/
def wp (X : Sem S σ) : Prog S α → (α → σ → Prop) → σ → Prop
  | .ret a, Q, s => Q a s
  | .fault, _, _ => False
  | .op e k, Q, s => ∀ o, X.op e s o → ∃ r s', o = some (r, s') ∧ wp X (k r) Q s'
  | .write m k, Q, s => ∀ o, X.write m s o → ∃ s', o = some s' ∧ wp X k Q s'
  | .read n k, Q, s => ∀ o, X.read n s o → ∃ m s', o = some (m, s') ∧ wp X (k m) Q s'

@[simp] theorem wp_ret {X : Sem S σ} {a : α} {Q : α → σ → Prop} {s : σ} : wp X (.ret a) Q s ↔ Q a s := Iff.rfl

@[simp] theorem wp_fault {X : Sem S σ} {Q : α → σ → Prop} {s : σ} : wp X .fault Q s ↔ False := Iff.rfl

theorem wp_op {X : Sem S σ} {e : S.Op} {k : S.Ans e → Prog S α} {Q : α → σ → Prop} {s : σ} :
    wp X (.op e k) Q s ↔ ∀ o, X.op e s o → ∃ r s', o = some (r, s') ∧ wp X (k r) Q s' := Iff.rfl

theorem wp_write {X : Sem S σ} {m : Msg} {k : Prog S α} {Q : α → σ → Prop} {s : σ} :
    wp X (.write m k) Q s ↔ ∀ o, X.write m s o → ∃ s', o = some s' ∧ wp X k Q s' := Iff.rfl

theorem wp_read {X : Sem S σ} {n : Nat} {k : Msg → Prog S α} {Q : α → σ → Prop} {s : σ} :
    wp X (.read n k) Q s ↔ ∀ o, X.read n s o → ∃ m s', o = some (m, s') ∧ wp X (k m) Q s' := Iff.rfl

/-- An operation with one outcome. -/
theorem wp_op_eq {X : Sem S σ} {e : S.Op} {k : S.Ans e → Prog S α} {Q : α → σ → Prop} {s s' : σ} {r : S.Ans e}
    (h : ∀ o, X.op e s o ↔ o = some (r, s')) : wp X (.op e k) Q s ↔ wp X (k r) Q s' := by
  rw [wp_op]
  constructor
  · intro H
    obtain ⟨r', s'', heq, hk⟩ := H _ ((h _).mpr rfl)
    cases heq
    exact hk
  · intro hk o ho
    exact ⟨r, s', (h o).mp ho, hk⟩

theorem wp_mono {X : Sem S σ} {p : Prog S α} {Q Q' : α → σ → Prop} {s : σ} (h : wp X p Q s)
    (hQ : ∀ a t, Q a t → Q' a t) : wp X p Q' s := by
  induction p generalizing s with
  | ret a => exact hQ _ _ h
  | fault => exact h
  | op e k ih =>
    intro o ho
    obtain ⟨r, s', heq, hk⟩ := h o ho
    exact ⟨r, s', heq, ih r hk⟩
  | write m k ih =>
    intro o ho
    obtain ⟨s', heq, hk⟩ := h o ho
    exact ⟨s', heq, ih hk⟩
  | read n k ih =>
    intro o ho
    obtain ⟨m, s', heq, hk⟩ := h o ho
    exact ⟨m, s', heq, ih m hk⟩

theorem wp_bind {X : Sem S σ} {p : Prog S α} {f : α → Prog S β} {Q : β → σ → Prop} {s : σ} :
    wp X (p >>= f) Q s ↔ wp X p (fun a t => wp X (f a) Q t) s := by
  induction p generalizing s with
  | ret a => rfl
  | fault => rfl
  | op e k ih => simp only [Prog.op_bind, wp_op, ih]
  | write m k ih => simp only [Prog.write_bind, wp_write, ih]
  | read n k ih => simp only [Prog.read_bind, wp_read, ih]

/-- The rule of sequencing: a specification of `p` whose results all lead on to `Q`. -/
theorem wp_seq {X : Sem S σ} {p : Prog S α} {f : α → Prog S β} {Q : β → σ → Prop} {R : α → σ → Prop} {s : σ}
    (h : wp X p R s) (hf : ∀ a t, R a t → wp X (f a) Q t) : wp X (p >>= f) Q s :=
  wp_bind.mpr (wp_mono h hf)

theorem wp_and {X : Sem S σ} {p : Prog S α} {Q Q' : α → σ → Prop} {s : σ} (h : wp X p Q s) (h' : wp X p Q' s) :
    wp X p (fun a t => Q a t ∧ Q' a t) s := by
  induction p generalizing s with
  | ret a => exact ⟨h, h'⟩
  | fault => exact h
  | op e k ih =>
    intro o ho
    obtain ⟨r, s', rfl, hk⟩ := h o ho
    obtain ⟨r', s'', heq, hk'⟩ := h' _ ho
    cases heq
    exact ⟨r, s', rfl, ih r hk hk'⟩
  | write m k ih =>
    intro o ho
    obtain ⟨s', rfl, hk⟩ := h o ho
    obtain ⟨s'', heq, hk'⟩ := h' _ ho
    cases heq
    exact ⟨s', rfl, ih hk hk'⟩
  | read n k ih =>
    intro o ho
    obtain ⟨m, s', rfl, hk⟩ := h o ho
    obtain ⟨m', s'', heq, hk'⟩ := h' _ ho
    cases heq
    exact ⟨m, s', rfl, ih m hk hk'⟩

/-- `wp` says exactly that every run returns and ends in `Q`. -/
theorem wp_iff_runs {X : Sem S σ} {p : Prog S α} {Q : α → σ → Prop} {s : σ} :
    wp X p Q s ↔ ∀ o, Runs X p s o → ∃ a t, o = some (a, t) ∧ Q a t := by
  induction p generalizing s with
  | ret a =>
    refine ⟨fun h o ho => ?_, fun h => ?_⟩
    · cases ho
      exact ⟨a, s, rfl, h⟩
    · obtain ⟨a', t, heq, hq⟩ := h _ .ret
      cases heq
      exact hq
  | fault =>
    refine ⟨fun h => h.elim, fun h => ?_⟩
    obtain ⟨a, t, heq, -⟩ := h _ .fault
    cases heq
  | op e k ih =>
    refine ⟨fun h o ho => ?_, fun h o ho => ?_⟩
    · cases ho with
      | op hx hr =>
        obtain ⟨r, s', heq, hk⟩ := h _ hx
        cases heq
        exact (ih _).mp hk _ hr
      | opFault hx =>
        obtain ⟨r, s', heq, -⟩ := h _ hx
        cases heq
    · cases o with
      | none =>
        obtain ⟨a, t, heq, -⟩ := h _ (.opFault ho)
        cases heq
      | some p => exact ⟨p.1, p.2, rfl, (ih p.1).mpr fun o' hr => h o' (.op ho hr)⟩
  | write m k ih =>
    refine ⟨fun h o ho => ?_, fun h o ho => ?_⟩
    · cases ho with
      | write hx hr =>
        obtain ⟨s', heq, hk⟩ := h _ hx
        cases heq
        exact ih.mp hk _ hr
      | writeFault hx =>
        obtain ⟨s', heq, -⟩ := h _ hx
        cases heq
    · cases o with
      | none =>
        obtain ⟨a, t, heq, -⟩ := h _ (.writeFault ho)
        cases heq
      | some s' => exact ⟨s', rfl, ih.mpr fun o' hr => h o' (.write ho hr)⟩
  | read n k ih =>
    refine ⟨fun h o ho => ?_, fun h o ho => ?_⟩
    · cases ho with
      | read hx hr =>
        obtain ⟨m, s', heq, hk⟩ := h _ hx
        cases heq
        exact (ih _).mp hk _ hr
      | readFault hx =>
        obtain ⟨m, s', heq, -⟩ := h _ hx
        cases heq
    · cases o with
      | none =>
        obtain ⟨a, t, heq, -⟩ := h _ (.readFault ho)
        cases heq
      | some p => exact ⟨p.1, p.2, rfl, (ih p.1).mpr fun o' hr => h o' (.read ho hr)⟩

/-- What a run ends in is what some run ends in. -/
theorem wp_runs {X : Sem S σ} {p : Prog S α} {Q : α → σ → Prop} {s : σ} (h : wp X p Q s) :
    wp X p (fun a t => Q a t ∧ Runs X p s (some (a, t))) s := wp_iff_runs.mpr fun o hr => by
  obtain ⟨a, t, rfl, hq⟩ := wp_iff_runs.mp h o hr
  exact ⟨a, t, rfl, hq, hr⟩

/-! ## Comparing semantics -/

/-- `X` may do no more than `Y` from any state where `Y` is defined. -/
structure Sem.Le (X Y : Sem S σ) : Prop where
  op : ∀ e s, Y.op e s none ∨ ∀ o, X.op e s o → Y.op e s o
  write : ∀ m s, Y.write m s none ∨ ∀ o, X.write m s o → Y.write m s o
  read : ∀ n s, Y.read n s none ∨ ∀ o, X.read n s o → Y.read n s o

/-- `X` on a state with a component that its operations neither read nor change, where `Y` may do no
    more than `X`: what is proved under `X` holds under `Y`. -/
structure Sem.Lift (X : Sem S σ) (Y : Sem S (σ × γ)) : Prop where
  op : ∀ e s g, X.op e s none ∨ ∀ o, Y.op e (s, g) o → ∃ o', X.op e s o' ∧ o = o'.map fun p => (p.1, (p.2, g))
  write : ∀ m s, X.write m s none
  read : ∀ n s, X.read n s none

theorem wp_of_le {X Y : Sem S σ} (h : X.Le Y) {p : Prog S α} {Q : α → σ → Prop} {s : σ} (hp : wp Y p Q s) :
    wp X p Q s := by
  induction p generalizing s with
  | ret a => exact hp
  | fault => exact hp
  | op e k ih =>
    intro o ho
    rcases h.op e s with hn | hle
    · obtain ⟨r, s', heq, -⟩ := hp _ hn
      cases heq
    · obtain ⟨r, s', heq, hk⟩ := hp o (hle o ho)
      exact ⟨r, s', heq, ih r hk⟩
  | write m k ih =>
    intro o ho
    rcases h.write m s with hn | hle
    · obtain ⟨s', heq, -⟩ := hp _ hn
      cases heq
    · obtain ⟨s', heq, hk⟩ := hp o (hle o ho)
      exact ⟨s', heq, ih hk⟩
  | read n k ih =>
    intro o ho
    rcases h.read n s with hn | hle
    · obtain ⟨m, s', heq, -⟩ := hp _ hn
      cases heq
    · obtain ⟨m, s', heq, hk⟩ := hp o (hle o ho)
      exact ⟨m, s', heq, ih m hk⟩

/-- A program that does not use its channel under `X` does the same beside a component `g`. -/
theorem wp_lift {X : Sem S σ} {Y : Sem S (σ × γ)} (h : X.Lift Y) {p : Prog S α} {Q : α → σ → Prop} {s : σ} {g : γ}
    (hp : wp X p Q s) : wp Y p (fun a t => t.2 = g ∧ Q a t.1) (s, g) := by
  induction p generalizing s with
  | ret a => exact ⟨rfl, hp⟩
  | fault => exact hp
  | op e k ih =>
    intro o ho
    rcases h.op e s g with hn | hle
    · obtain ⟨r, s', heq, -⟩ := hp _ hn
      cases heq
    · obtain ⟨o', ho', rfl⟩ := hle o ho
      obtain ⟨r, s', rfl, hk⟩ := hp o' ho'
      exact ⟨r, (s', g), rfl, ih r hk⟩
  | write m k ih =>
    obtain ⟨s', heq, -⟩ := hp _ (h.write m s)
    cases heq
  | read n k ih =>
    obtain ⟨m, s', heq, -⟩ := hp _ (h.read n s)
    cases heq

/-! ## Runs that return -/

/-- `Q` holds of what every run that returns ends in. -/
def wlp (X : Sem S σ) (p : Prog S α) (Q : α → σ → Prop) (s : σ) : Prop := ∀ a t, Runs X p s (some (a, t)) → Q a t

theorem wlp_of_wp {X : Sem S σ} {p : Prog S α} {Q : α → σ → Prop} {s : σ} (h : wp X p Q s) : wlp X p Q s := fun a t hr => by
  obtain ⟨a', t', heq, hq⟩ := wp_iff_runs.mp h _ hr
  cases heq
  exact hq

theorem wlp_ret {X : Sem S σ} {a : α} {Q : α → σ → Prop} {s : σ} (h : Q a s) : wlp X (.ret a) Q s := fun a' t hr => by
  cases hr
  exact h

theorem wlp_mono {X : Sem S σ} {p : Prog S α} {Q Q' : α → σ → Prop} {s : σ} (h : wlp X p Q s)
    (hQ : ∀ a t, Q a t → Q' a t) : wlp X p Q' s := fun a t hr => hQ a t (h a t hr)

theorem runs_bind {X : Sem S σ} {p : Prog S α} {f : α → Prog S β} {s : σ} {b : β} {t : σ}
    (h : Runs X (p >>= f) s (some (b, t))) : ∃ a s', Runs X p s (some (a, s')) ∧ Runs X (f a) s' (some (b, t)) := by
  induction p generalizing s with
  | ret a => exact ⟨a, s, .ret, h⟩
  | fault => cases h
  | op e k ih =>
    cases h with
    | op hx hr =>
      obtain ⟨a, s', hp, hf⟩ := ih _ hr
      exact ⟨a, s', .op hx hp, hf⟩
  | write m k ih =>
    cases h with
    | write hx hr =>
      obtain ⟨a, s', hp, hf⟩ := ih hr
      exact ⟨a, s', .write hx hp, hf⟩
  | read n k ih =>
    cases h with
    | read hx hr =>
      obtain ⟨a, s', hp, hf⟩ := ih _ hr
      exact ⟨a, s', .read hx hp, hf⟩

theorem wlp_seq {X : Sem S σ} {p : Prog S α} {f : α → Prog S β} {Q : β → σ → Prop} {R : α → σ → Prop} {s : σ}
    (h : wlp X p R s) (hf : ∀ a t, R a t → wlp X (f a) Q t) : wlp X (p >>= f) Q s := fun b t hr => by
  obtain ⟨a, s', hp, hr'⟩ := runs_bind hr
  exact hf a s' (h a s' hp) b t hr'

/-! ## Runs that there are -/

/-- Some run returns and ends in `Q`. -/
def may (X : Sem S σ) (p : Prog S α) (Q : α → σ → Prop) (s : σ) : Prop := ∃ a t, Runs X p s (some (a, t)) ∧ Q a t

theorem may_ret {X : Sem S σ} {a : α} {Q : α → σ → Prop} {s : σ} (h : Q a s) : may X (.ret a) Q s := ⟨a, s, .ret, h⟩

theorem may_op {X : Sem S σ} {e : S.Op} {k : S.Ans e → Prog S α} {Q : α → σ → Prop} {s s' : σ} {r : S.Ans e}
    (ho : X.op e s (some (r, s'))) (h : may X (k r) Q s') : may X (.op e k) Q s := by
  obtain ⟨a, t, hr, hq⟩ := h
  exact ⟨a, t, .op ho hr, hq⟩

theorem may_mono {X : Sem S σ} {p : Prog S α} {Q Q' : α → σ → Prop} {s : σ} (h : may X p Q s) (hQ : ∀ a t, Q a t → Q' a t) :
    may X p Q' s := by
  obtain ⟨a, t, hr, hq⟩ := h
  exact ⟨a, t, hr, hQ a t hq⟩

theorem bind_runs {X : Sem S σ} {p : Prog S α} {f : α → Prog S β} {s t : σ} {a : α} {o : Option (β × σ)}
    (h : Runs X p s (some (a, t))) (hf : Runs X (f a) t o) : Runs X (p >>= f) s o := by
  induction p generalizing s with
  | ret b =>
    cases h
    exact hf
  | fault => cases h
  | op e k ih =>
    cases h with
    | op hx hr => exact .op hx (ih _ hr)
  | write m k ih =>
    cases h with
    | write hx hr => exact .write hx (ih hr)
  | read n k ih =>
    cases h with
    | read hx hr => exact .read hx (ih _ hr)

theorem may_bind {X : Sem S σ} {p : Prog S α} {f : α → Prog S β} {Q : β → σ → Prop} {s : σ}
    (h : may X p (fun a t => may X (f a) Q t) s) : may X (p >>= f) Q s := by
  obtain ⟨a, t, hr, b, u, hr', hq⟩ := h
  exact ⟨b, u, bind_runs hr hr', hq⟩

/-- A run that there is ends as every run does. -/
theorem may_of_wp {X : Sem S σ} {p : Prog S α} {Q Q' : α → σ → Prop} {s : σ} (h : wp X p Q s) (h' : may X p Q' s) :
    ∃ a t, Q a t ∧ Q' a t := by
  obtain ⟨a, t, hr, hq⟩ := h'
  exact ⟨a, t, wlp_of_wp h a t hr, hq⟩

/-! ## Programs with some of the operations -/

/-- All operations of the program are among `ok`. -/
def Prog.Only (ok : S.Op → Prop) : Prog S α → Prop
  | .ret _ => True
  | .fault => True
  | .op e k => ok e ∧ ∀ r, (k r).Only ok
  | .write _ k => k.Only ok
  | .read _ k => ∀ m, (k m).Only ok

theorem Prog.Only.bind {ok : S.Op → Prop} {p : Prog S α} {f : α → Prog S β} (hp : p.Only ok) (hf : ∀ a, (f a).Only ok) :
    (p >>= f).Only ok := by
  induction p with
  | ret a => exact hf a
  | fault => trivial
  | op e k ih => exact ⟨hp.1, fun r => ih r (hp.2 r)⟩
  | write m k ih => exact ih hp
  | read n k ih => exact fun m => ih m (hp m)

/-- What the operations, writes and reads keep, a run of the program keeps. -/
theorem Prog.Only.wlp {X : Sem S σ} {ok : S.Op → Prop} {I : σ → Prop} {p : Prog S α} {s : σ} (hp : p.Only ok)
    (hop : ∀ e s r s', ok e → X.op e s (some (r, s')) → I s → I s') (hwrite : ∀ m s s', X.write m s (some s') → I s → I s')
    (hread : ∀ n s m s', X.read n s (some (m, s')) → I s → I s') (hs : I s) : Interact.wlp X p (fun _ t => I t) s := by
  intro a t hr
  induction p generalizing s with
  | ret b =>
    cases hr
    exact hs
  | fault => cases hr
  | op e k ih =>
    cases hr with
    | op hx hr => exact ih _ (hp.2 _) (hop e _ _ _ hp.1 hx hs) hr
  | write m k ih =>
    cases hr with
    | write hx hr => exact ih hp (hwrite m _ _ hx hs) hr
  | read n k ih =>
    cases hr with
    | read hx hr => exact ih _ (hp _) (hread n _ _ _ hx hs) hr

-- From here on `wp` is used through these lemmas only: to unfold it is to run the program.
attribute [irreducible] wp

/-! ## Running a program -/

/-- One way to answer every operation, write and read. -/
structure Machine (S : Sig) (σ : Type) where
  op : (e : S.Op) → σ → Option (S.Ans e × σ)
  write : Msg → σ → Option σ
  read : Nat → σ → Option (Msg × σ)

/-- The machine's answers are outcomes of the semantics. -/
structure Machine.Of (M : Machine S σ) (X : Sem S σ) : Prop where
  op : ∀ e s p, M.op e s = some p → X.op e s (some p)
  write : ∀ m s t, M.write m s = some t → X.write m s (some t)
  read : ∀ n s p, M.read n s = some p → X.read n s (some p)

/-- The run of a program on a machine. -/
def Machine.exec (M : Machine S σ) : Prog S α → σ → Option (α × σ)
  | .ret a, s => some (a, s)
  | .fault, _ => none
  | .op e k, s => match M.op e s with
    | none => none
    | some p => M.exec (k p.1) p.2
  | .write m k, s => match M.write m s with
    | none => none
    | some t => M.exec k t
  | .read n k, s => match M.read n s with
    | none => none
    | some p => M.exec (k p.1) p.2

theorem Machine.exec_op {M : Machine S σ} {e : S.Op} {k : S.Ans e → Prog S α} {s : σ} :
    M.exec (.op e k) s = (M.op e s).bind fun p => M.exec (k p.1) p.2 := by
  rw [exec]
  cases M.op e s <;> rfl

theorem Machine.exec_bind {M : Machine S σ} {p : Prog S α} {f : α → Prog S β} {s : σ} :
    M.exec (p >>= f) s = (M.exec p s).bind fun r => M.exec (f r.1) r.2 := by
  induction p generalizing s with
  | ret a => rfl
  | fault => rfl
  | op e k ih =>
    simp only [Prog.op_bind, exec]
    cases M.op e s with
    | none => rfl
    | some q => exact ih _
  | write m k ih =>
    simp only [Prog.write_bind, exec]
    cases M.write m s with
    | none => rfl
    | some t => exact ih
  | read n k ih =>
    simp only [Prog.read_bind, exec]
    cases M.read n s with
    | none => rfl
    | some q => exact ih _

theorem Machine.Of.runs {M : Machine S σ} {X : Sem S σ} (h : M.Of X) {p : Prog S α} {s : σ} {a : α} {t : σ}
    (hp : M.exec p s = some (a, t)) : Runs X p s (some (a, t)) := by
  induction p generalizing s with
  | ret b =>
    simp only [exec, Option.some.injEq, Prod.mk.injEq] at hp
    obtain ⟨rfl, rfl⟩ := hp
    exact .ret
  | fault => cases hp
  | op e k ih =>
    simp only [exec] at hp
    split at hp
    · cases hp
    · rename_i q hq
      exact .op (h.op _ _ _ hq) (ih _ hp)
  | write m k ih =>
    simp only [exec] at hp
    split at hp
    · cases hp
    · rename_i q hq
      exact .write (h.write _ _ _ hq) (ih hp)
  | read n k ih =>
    simp only [exec] at hp
    split at hp
    · cases hp
    · rename_i q hq
      exact .read (h.read _ _ _ hq) (ih _ hp)

/-- Where the semantics leaves no choice but the machine's answers, there is no run but the machine's. -/
theorem Machine.wp_exec {M : Machine S σ} {X : Sem S σ} (hop : ∀ e s r o, M.op e s = some r → X.op e s o → o = some r)
    (hwrite : ∀ m s t o, M.write m s = some t → X.write m s o → o = some t)
    (hread : ∀ n s r o, M.read n s = some r → X.read n s o → o = some r) {p : Prog S α} {s : σ} {a : α} {t : σ}
    (hp : M.exec p s = some (a, t)) : wp X p (fun b u => b = a ∧ u = t) s := by
  induction p generalizing s with
  | ret b =>
    cases hp
    exact wp_ret.mpr ⟨rfl, rfl⟩
  | fault => cases hp
  | op e k ih =>
    simp only [exec] at hp
    split at hp
    · cases hp
    · rename_i q hq
      exact wp_op.mpr fun o ho => ⟨q.1, q.2, hop _ _ _ _ hq ho, ih _ hp⟩
  | write m k ih =>
    simp only [exec] at hp
    split at hp
    · cases hp
    · rename_i q hq
      exact wp_write.mpr fun o ho => ⟨q, hwrite _ _ _ _ hq ho, ih hp⟩
  | read n k ih =>
    simp only [exec] at hp
    split at hp
    · cases hp
    · rename_i q hq
      exact wp_read.mpr fun o ho => ⟨q.1, q.2, hread _ _ _ _ hq ho, ih _ hp⟩

/-- What has been decided of a run that has a result. -/
theorem exists_of_decide {o : Option α} {P : α → Prop} [DecidablePred P] (h : (o.map fun r => decide (P r)) = some true) :
    ∃ r, o = some r ∧ P r := by
  obtain ⟨r, hr, hP⟩ := Option.map_eq_some_iff.mp h
  exact ⟨r, hr, of_decide_eq_true hP⟩

end

end Interact
