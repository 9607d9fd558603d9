import MiniFs.Lib.Dialogue

/-! # Refining a semantics

A semantics simulates another one when, from related states, its operations do no more. What is proved of a program under
the abstract one then holds under the concrete one (`Sem.Sim.wp`), also beside a channel (`Sem.Sim.talk`) and of a server
in a link (`Link.Atomic.refine`). Where the simulation is only about some of the operations, `Prog.Within` says that a
program performs no other ones, as long as the operations answer what they can. -/

namespace Interact

section
variable {S : Sig} {α β σ τ : Type} {ok : S.Op → Prop} {ans : ∀ e, S.Ans e → Prop}

/-! ## The operations that a program performs -/

/-- As long as the answers are among `ans`, all operations of the program are among `ok`, and what it returns is as `Q`
    says. -/
def Prog.Within (ok : S.Op → Prop) (ans : ∀ e, S.Ans e → Prop) : Prog S α → (α → Prop) → Prop
  | .ret a, Q => Q a
  | .fault, _ => True
  | .op e k, Q => ok e ∧ ∀ r, ans e r → (k r).Within ok ans Q
  | .write _ k, Q => k.Within ok ans Q
  | .read _ k, Q => ∀ m, (k m).Within ok ans Q

theorem Prog.Within.mono {p : Prog S α} {Q Q' : α → Prop} (h : p.Within ok ans Q) (hQ : ∀ a, Q a → Q' a) :
    p.Within ok ans Q' := by
  induction p with
  | ret a => exact hQ a h
  | fault => trivial
  | op e k ih => exact ⟨h.1, fun r hr => ih r (h.2 r hr)⟩
  | write m k ih => exact ih h
  | read n k ih => exact fun m => ih m (h m)

theorem Prog.Within.seq {p : Prog S α} {f : α → Prog S β} {R : α → Prop} {Q : β → Prop} (hp : p.Within ok ans R)
    (hf : ∀ a, R a → (f a).Within ok ans Q) : (p >>= f).Within ok ans Q := by
  induction p with
  | ret a => exact hf a hp
  | fault => trivial
  | op e k ih => exact ⟨hp.1, fun r hr => ih r (hp.2 r hr)⟩
  | write m k ih => exact ih hp
  | read n k ih => exact fun m => ih m (hp m)

/-- What the operations of the program, its writes and its reads keep, a run of it keeps. -/
theorem Prog.Within.wlp {X : Sem S σ} {I : σ → Prop} {p : Prog S α} {Q : α → Prop} {s : σ} (hp : p.Within ok ans Q)
    (hop : ∀ e s r s', ok e → X.op e s (some (r, s')) → I s → ans e r ∧ I s')
    (hwrite : ∀ m s s', X.write m s (some s') → I s → I s')
    (hread : ∀ n s m s', X.read n s (some (m, s')) → I s → I s') (hs : I s) :
    Interact.wlp X p (fun a t => Q a ∧ I t) s := by
  intro a t hr
  induction p generalizing s with
  | ret b =>
    cases hr
    exact ⟨hp, hs⟩
  | fault => cases hr
  | op e k ih =>
    cases hr with
    | op hx hr =>
      obtain ⟨ha, hs'⟩ := hop e _ _ _ hp.1 hx hs
      exact ih _ (hp.2 _ ha) hs' hr
  | write m k ih =>
    cases hr with
    | write hx hr => exact ih hp (hwrite m _ _ hx hs) hr
  | read n k ih =>
    cases hr with
    | read hx hr => exact ih _ (hp _) (hread n _ _ _ hx hs) hr

/-- Every program performs operations and gets answers. -/
theorem Prog.within_any (p : Prog S α) : p.Within (fun _ => True) (fun _ _ => True) fun _ => True := by
  induction p with
  | ret a => trivial
  | fault => trivial
  | op e k ih => exact ⟨trivial, fun r _ => ih r⟩
  | write m k ih => exact ih
  | read n k ih => exact ih

/-! ## Simulation -/

/-- From related states each outcome under `Y` of an operation among `ok` is one under `X`, with an answer among `ans`. -/
structure Sem.Sim (ok : S.Op → Prop) (ans : ∀ e, S.Ans e → Prop) (X : Sem S σ) (Y : Sem S τ) (R : σ → τ → Prop) : Prop where
  op : ∀ e s t o, ok e → R s t → Y.op e t o →
    (o = none ∧ X.op e s none) ∨ ∃ r s' t', o = some (r, t') ∧ ans e r ∧ X.op e s (some (r, s')) ∧ R s' t'
  write : ∀ m s t o, R s t → Y.write m t o →
    (o = none ∧ X.write m s none) ∨ ∃ s' t', o = some t' ∧ X.write m s (some s') ∧ R s' t'
  read : ∀ n s t o, R s t → Y.read n t o →
    (o = none ∧ X.read n s none) ∨ ∃ m s' t', o = some (m, t') ∧ X.read n s (some (m, s')) ∧ R s' t'

section
variable {X : Sem S σ} {Y : Sem S τ} {R : σ → τ → Prop} {p : Prog S α} {s : σ} {t : τ}

/-- A run under `Y` is a run under `X` from a related state. -/
theorem Sem.Sim.runs (h : X.Sim ok ans Y R) {Q : α → Prop} (hp : p.Within ok ans Q) (hR : R s t) {o : Option (α × τ)}
    (hr : Runs Y p t o) :
    (o = none ∧ Runs X p s none) ∨ ∃ a s' t', o = some (a, t') ∧ Q a ∧ Runs X p s (some (a, s')) ∧ R s' t' := by
  induction p generalizing s t with
  | ret a =>
    cases hr
    exact Or.inr ⟨a, s, t, rfl, hp, .ret, hR⟩
  | fault =>
    cases hr
    exact Or.inl ⟨rfl, .fault⟩
  | op e k ih =>
    cases hr with
    | op hy hr =>
      rcases h.op e s t _ hp.1 hR hy with ⟨heq, -⟩ | ⟨r, s', t', heq, ha, hx, hR'⟩
      · cases heq
      cases heq
      rcases ih _ (hp.2 _ ha) hR' hr with ⟨rfl, hn⟩ | ⟨a, s'', t'', rfl, hq, hx', hR''⟩
      · exact Or.inl ⟨rfl, .op hx hn⟩
      · exact Or.inr ⟨a, s'', t'', rfl, hq, .op hx hx', hR''⟩
    | opFault hy =>
      rcases h.op e s t _ hp.1 hR hy with ⟨-, hn⟩ | ⟨r, s', t', heq, -⟩
      · exact Or.inl ⟨rfl, .opFault hn⟩
      · cases heq
  | write m k ih =>
    cases hr with
    | write hy hr =>
      rcases h.write m s t _ hR hy with ⟨heq, -⟩ | ⟨s', t', heq, hx, hR'⟩
      · cases heq
      cases heq
      rcases ih hp hR' hr with ⟨rfl, hn⟩ | ⟨a, s'', t'', rfl, hq, hx', hR''⟩
      · exact Or.inl ⟨rfl, .write hx hn⟩
      · exact Or.inr ⟨a, s'', t'', rfl, hq, .write hx hx', hR''⟩
    | writeFault hy =>
      rcases h.write m s t _ hR hy with ⟨-, hn⟩ | ⟨s', t', heq, -⟩
      · exact Or.inl ⟨rfl, .writeFault hn⟩
      · cases heq
  | read n k ih =>
    cases hr with
    | read hy hr =>
      rcases h.read n s t _ hR hy with ⟨heq, -⟩ | ⟨m, s', t', heq, hx, hR'⟩
      · cases heq
      cases heq
      rcases ih _ (hp _) hR' hr with ⟨rfl, hn⟩ | ⟨a, s'', t'', rfl, hq, hx', hR''⟩
      · exact Or.inl ⟨rfl, .read hx hn⟩
      · exact Or.inr ⟨a, s'', t'', rfl, hq, .read hx hx', hR''⟩
    | readFault hy =>
      rcases h.read n s t _ hR hy with ⟨-, hn⟩ | ⟨m, s', t', heq, -⟩
      · exact Or.inl ⟨rfl, .readFault hn⟩
      · cases heq

/-- What every run under `X` ends in, every run under `Y` ends in, in a related state. -/
theorem Sem.Sim.wp (h : X.Sim ok ans Y R) {Q' : α → Prop} (hp : p.Within ok ans Q') (hR : R s t) {Q : α → σ → Prop}
    (hw : Interact.wp X p Q s) : Interact.wp Y p (fun a t' => Q' a ∧ ∃ s', Q a s' ∧ R s' t') t := by
  refine wp_iff_runs.mpr fun o hr => ?_
  rcases h.runs hp hR hr with ⟨-, hn⟩ | ⟨a, s', t', rfl, hq', hx, hR'⟩
  · obtain ⟨a, s', heq, -⟩ := wp_iff_runs.mp hw _ hn
    cases heq
  · obtain ⟨a', s'', heq, hq⟩ := wp_iff_runs.mp hw _ hx
    cases heq
    exact ⟨a, t', rfl, hq', s', hq, hR'⟩

/-- A simulation holds of two semantics that follow the same session. -/
theorem Sem.Sim.talk (h : X.Sim ok ans Y R) : X.talk.Sim ok ans Y.talk fun u v => R u.1 v.1 ∧ u.2 = v.2 where
  op := by
    rintro e ⟨s, A⟩ ⟨t, B⟩ o he ⟨hR, rfl⟩ ⟨o', ho', rfl⟩
    rcases h.op e s t o' he hR ho' with ⟨rfl, hn⟩ | ⟨r, s', t', rfl, ha, hx, hR'⟩
    · exact Or.inl ⟨rfl, none, hn, rfl⟩
    · exact Or.inr ⟨r, (s', A), (t', A), rfl, ha, ⟨_, hx, rfl⟩, hR', rfl⟩
  write := by
    rintro m ⟨s, A⟩ ⟨t, B⟩ o ⟨hR, rfl⟩ ho
    cases A with
    | send P k =>
      rcases ho with ⟨hm, rfl⟩ | ⟨hm, rfl⟩
      · exact Or.inr ⟨(s, k m), (t, k m), rfl, Or.inl ⟨hm, rfl⟩, hR, rfl⟩
      · exact Or.inl ⟨rfl, Or.inr ⟨hm, rfl⟩⟩
    | done => exact Or.inl ⟨ho, rfl⟩
    | recv P k => exact Or.inl ⟨ho, rfl⟩
  read := by
    rintro n ⟨s, A⟩ ⟨t, B⟩ o ⟨hR, rfl⟩ ho
    cases A with
    | recv P k =>
      obtain ⟨m, hm, ⟨hn, rfl⟩ | ⟨hn, rfl⟩⟩ := ho
      · exact Or.inr ⟨m, (s, k m), (t, k m), rfl, ⟨m, hm, Or.inl ⟨hn, rfl⟩⟩, hR, rfl⟩
      · exact Or.inl ⟨rfl, m, hm, Or.inr ⟨hn, rfl⟩⟩
    | done => exact Or.inl ⟨ho, rfl⟩
    | send P k => exact Or.inl ⟨ho, rfl⟩

end

/-! ## A record of the operations -/

/-- The operations that have been performed are kept beside the state. -/
def Sem.logged (X : Sem S σ) : Sem S (σ × List S.Op) where
  op e u o := ∃ o', X.op e u.1 o' ∧ o = o'.map fun p => (p.1, (p.2, u.2 ++ [e]))
  write m u o := ∃ o', X.write m u.1 o' ∧ o = o'.map fun s => (s, u.2)
  read n u o := ∃ o', X.read n u.1 o' ∧ o = o'.map fun p => (p.1, (p.2, u.2))

/-- A program performs the operations that it is said to perform. -/
theorem Prog.Within.logged {X : Sem S σ} {p : Prog S α} {Q : α → Prop} {s : σ} {log : List S.Op} (hp : p.Within ok ans Q)
    (hX : ∀ e s r s', ok e → X.op e s (some (r, s')) → ans e r) (hlog : ∀ e ∈ log, ok e) :
    Interact.wlp X.logged p (fun a u => Q a ∧ ∀ e ∈ u.2, ok e) (s, log) := by
  refine hp.wlp (I := fun u : σ × List S.Op => ∀ e ∈ u.2, ok e) ?_ ?_ ?_ hlog
  · rintro e ⟨s, l⟩ r ⟨s', l'⟩ he ⟨o', ho', heq⟩ hl
    obtain ⟨⟨r', s''⟩, rfl, hm⟩ := Option.map_eq_some_iff.mp heq.symm
    cases hm
    refine ⟨hX e s _ _ he ho', fun e' he' => ?_⟩
    rcases List.mem_append.mp he' with he' | he'
    · exact hl e' he'
    · exact List.mem_singleton.mp he' ▸ he
  · rintro m ⟨s, l⟩ ⟨s', l'⟩ ⟨o', -, heq⟩ hl
    obtain ⟨s'', rfl, hm⟩ := Option.map_eq_some_iff.mp heq.symm
    cases hm
    exact hl
  · rintro n ⟨s, l⟩ m ⟨s', l'⟩ ⟨o', -, heq⟩ hl
    obtain ⟨⟨r', s''⟩, rfl, hm⟩ := Option.map_eq_some_iff.mp heq.symm
    cases hm
    exact hl

/-- The record changes nothing. -/
theorem Sem.logged_sim {X : Sem S σ} (hX : ∀ e s r s', ok e → X.op e s (some (r, s')) → ans e r) :
    X.Sim ok ans X.logged fun s u => u.1 = s where
  op := by
    rintro e s ⟨_, l⟩ o he rfl ⟨o', ho, rfl⟩
    cases o' with
    | none => exact Or.inl ⟨rfl, ho⟩
    | some q => exact Or.inr ⟨q.1, q.2, (q.2, l ++ [e]), rfl, hX e _ q.1 q.2 he ho, ho, rfl⟩
  write := by
    rintro m s ⟨_, l⟩ o rfl ⟨o', ho, rfl⟩
    cases o' with
    | none => exact Or.inl ⟨rfl, ho⟩
    | some s' => exact Or.inr ⟨s', (s', l), rfl, ho, rfl⟩
  read := by
    rintro n s ⟨_, l⟩ o rfl ⟨o', ho, rfl⟩
    cases o' with
    | none => exact Or.inl ⟨rfl, ho⟩
    | some q => exact Or.inr ⟨q.1, q.2, (q.2, l), rfl, ho, rfl⟩

theorem Sem.Alone.logged {X : Sem S σ} (hX : X.Alone) : X.logged.Alone where
  total := fun e u => by
    obtain ⟨o, ho⟩ := hX.total e u.1
    exact ⟨_, o, ho, rfl⟩
  write := fun m u => ⟨none, hX.write m u.1, rfl⟩
  read := fun n u => ⟨none, hX.read n u.1, rfl⟩

end

/-! ## A server on a concrete state -/

section
variable {S T : Sig} {σ τ υ C ρ κ : Type} {L : Link S T σ τ C ρ κ} {Inv : κ → τ → Prop}
variable {Eff : κ → τ → C → ρ → Option κ → τ → Prop} {Y : Sem T υ} {R : υ → Prop} {f : υ → τ}

/-- The same link with a server that works on `Y`; a call may start where it may in the abstract state. -/
def Link.over (L : Link S T σ τ C ρ κ) (Y : Sem T υ) (f : υ → τ) : Link S T σ υ C ρ κ where
  X := L.X
  Y := Y
  call := L.call
  more := L.more
  serve := L.serve
  ok k u c := L.ok k (f u) c

/-- A server whose rounds carry over to `Y` makes the same effects there, seen through `f`. -/
theorem Link.Atomic.refine (hL : L.Atomic Inv Eff)
    (hserve : ∀ k u A Q, R u → Inv k (f u) → wp L.Y.talk (L.serve k) Q (f u, A) →
      wp Y.talk (L.serve k) (fun k' v => R v.1 ∧ Q k' (f v.1, v.2)) (u, A)) :
    (L.over Y f).Atomic (fun k u => R u ∧ Inv k (f u)) (fun k u c r k' u' => R u' ∧ Eff k (f u) c r k' (f u')) where
  waits := hL.waits
  session := by
    rintro k u c ⟨hR, hinv⟩ hok
    obtain ⟨A, Qc, Qs, hA, hcl, hse, heff⟩ := hL.session k (f u) c hinv hok
    refine ⟨A, Qc, fun k' u' => R u' ∧ Qs k' (f u'), hA, hcl, wp_mono (hserve k u _ _ hR hinv hse) ?_, ?_⟩
    · rintro k' ⟨u', B⟩ ⟨hR', rfl, hq⟩
      exact ⟨rfl, hR', hq⟩
    · rintro r k' u' hc ⟨hR', hq⟩
      exact ⟨hR', heff r k' (f u') hc hq⟩
  more := by
    rintro k u c r u' ⟨-, hinv⟩ hok ⟨-, he⟩
    exact hL.more k (f u) c r (f u') hinv hok he
  inv := by
    rintro k u c r k' u' ⟨-, hinv⟩ hok ⟨hR', he⟩
    exact ⟨hR', hL.inv k (f u) c r k' (f u') hinv hok he⟩

/-- Some schedule comes to an end. -/
theorem Link.Atomic.exists_end {Inv : κ → τ → Prop} {Eff : κ → τ → C → ρ → Option κ → τ → Prop} {k₀ : κ} {t₀ : τ}
    (hL : L.Atomic Inv Eff) (h : Inv k₀ t₀) (todo : List C) (cst : σ) :
    ∃ g, L.Reaches (.initial todo cst k₀ t₀) g ∧ ∀ g', ¬L.Step g g' := by
  by_contra hno
  have hstep : ∀ x : { g // L.Reaches (.initial todo cst k₀ t₀) g }, ∃ g', L.Step x.val g' := fun x => by
    by_contra hend
    exact hno ⟨x.val, x.property, fun g' hs => hend ⟨g', hs⟩⟩
  choose next hnext using hstep
  let run : Nat → { g // L.Reaches (.initial todo cst k₀ t₀) g } :=
    Nat.rec ⟨_, .refl⟩ fun _ x => ⟨next x, x.property.tail (hnext x)⟩
  exact hL.terminates h todo cst (fun n => (run n).val) rfl fun n => hnext (run n)

/-- Calls on the concrete states are calls on the abstract ones. -/
theorem Calls.map {k₀ : κ} {u₀ : υ} {log : List (C × ρ)} {k : Option κ} {u : υ}
    (h : Calls (fun k u c r k' u' => R u' ∧ Eff k (f u) c r k' (f u')) k₀ u₀ log k u) : Calls Eff k₀ (f u₀) log k (f u) := by
  induction h with
  | nil => exact .nil
  | concat _ he ih => exact .concat ih he.2

end

end Interact
