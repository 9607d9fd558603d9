import MiniFs.Lib.Prog
import Mathlib.Logic.Relation
import Mathlib.Data.Set.Operations
import Mathlib.Order.WellFounded

/-! # Two programs over two FIFO queues

A client makes calls one after the other, and a server answers requests in a loop. Their writes go to two
queues, from which their reads take whole messages. A `Session` says who sends what; when for every call
the client follows a session and the server follows its dual, then every schedule of the two, whatever the
lengths of the queues in between, has the effect of the calls run atomically one after the other
(`Link.Atomic.good`), no schedule gets stuck (`Link.Good.step`), and none runs forever
(`Link.Atomic.terminates`). Where an operation of the server may have no outcome, a schedule may also come to its end there
(`Link.Good.end_or_hits`). -/

namespace Interact

/-- What is still to be exchanged, as one party sees it. -/
inductive Session where
  | done
  | send (P : Msg → Prop) (k : Msg → Session)
  | recv (P : Msg → Prop) (k : Msg → Session)

namespace Session

/-- The same exchange as the other party sees it. -/
def dual : Session → Session
  | done => done
  | send P k => recv P fun m => (k m).dual
  | recv P k => send P fun m => (k m).dual

/-- The party is to receive next. -/
def Listens : Session → Prop
  | recv _ _ => True
  | _ => False

/-- The two take turns, no message is empty, and no message that the party sends is the last one. -/
def Closing : Session → Prop
  | done => True
  | send P k => ∀ m, P m → m ≠ [] ∧ (k m).Listens ∧ (k m).Closing
  | recv P k => ∀ m, P m → m ≠ [] ∧ ¬(k m).Listens ∧ (k m).Closing

/-- Send exactly `m`. -/
def say (m : Msg) (A : Session) : Session := send (· = m) fun _ => A

/-- Receive exactly `m`. -/
def hear (m : Msg) (A : Session) : Session := recv (· = m) fun _ => A

@[simp] theorem dual_done : done.dual = done := rfl
@[simp] theorem dual_say (m : Msg) (A : Session) : (say m A).dual = hear m A.dual := rfl
@[simp] theorem dual_hear (m : Msg) (A : Session) : (hear m A).dual = say m A.dual := rfl

theorem hear_ne_done (m : Msg) (A : Session) : hear m A ≠ done := nofun

theorem hear_listens (m : Msg) (A : Session) : (hear m A).Listens := trivial
theorem not_say_listens (m : Msg) (A : Session) : ¬(say m A).Listens := fun h => h
theorem not_done_listens : ¬done.Listens := fun h => h

theorem closing_done : done.Closing := trivial

theorem Closing.say {A : Session} (h : A.Closing) (hA : A.Listens) {m : Msg} (hm : m ≠ []) : (say m A).Closing :=
  fun _ heq => ⟨heq ▸ hm, hA, h⟩

theorem Closing.hear {A : Session} (h : A.Closing) (hA : ¬A.Listens) {m : Msg} (hm : m ≠ []) : (hear m A).Closing :=
  fun _ heq => ⟨heq ▸ hm, hA, h⟩

/-- `A` becomes `B` when the party has sent `ms`. -/
inductive Sent : Session → List Msg → Session → Prop
  | nil {A} : Sent A [] A
  | cons {P k m ms B} : P m → Sent (k m) ms B → Sent (send P k) (m :: ms) B

/-- `A` becomes `B` when the party has received `ms`. -/
inductive Received : Session → List Msg → Session → Prop
  | nil {A} : Received A [] A
  | cons {P k m ms B} : P m → Received (k m) ms B → Received (recv P k) (m :: ms) B

theorem Sent.concat {A : Session} {ms : List Msg} {P : Msg → Prop} {k : Msg → Session} {m : Msg}
    (h : Sent A ms (send P k)) (hm : P m) : Sent A (ms ++ [m]) (k m) := by
  generalize hB : send P k = B at h
  induction h with
  | nil =>
    subst hB
    exact .cons hm .nil
  | cons hP _ ih => exact .cons hP (ih hB)

theorem Received.concat {A : Session} {ms : List Msg} {P : Msg → Prop} {k : Msg → Session} {m : Msg}
    (h : Received A ms (recv P k)) (hm : P m) : Received A (ms ++ [m]) (k m) := by
  generalize hB : recv P k = B at h
  induction h with
  | nil =>
    subst hB
    exact .cons hm .nil
  | cons hP _ ih => exact .cons hP (ih hB)

theorem Sent.eq_of_done {A : Session} {ms : List Msg} (hA : A.Closing) (h : Sent A ms done) : ms = [] ∧ A = done := by
  cases h with
  | nil => exact ⟨rfl, rfl⟩
  | @cons _ k m _ _ hP h =>
    obtain ⟨-, hl, -⟩ := hA _ hP
    generalize k m = A at h hl
    cases h with
    | nil => exact hl.elim
    | cons _ _ => exact hl.elim

/-- A party whose turn it is sends one message. -/
theorem Sent.length_le {A B : Session} {ms : List Msg} (hA : A.Closing) (h : Sent A ms B) : ms.length ≤ 1 := by
  cases h with
  | nil => exact Nat.zero_le _
  | @cons _ k m _ _ hP h =>
    obtain ⟨-, hl, -⟩ := hA _ hP
    generalize k m = A at h hl
    cases h with
    | nil => exact Nat.le_refl _
    | cons _ _ => exact hl.elim

theorem Received.length_le {A B : Session} {ms : List Msg} (hA : A.Closing) (h : Received A ms B) : ms.length ≤ 1 := by
  cases h with
  | nil => exact Nat.zero_le _
  | @cons _ k m _ _ hP h =>
    obtain ⟨-, hl, -⟩ := hA _ hP
    generalize k m = A at h hl
    cases h with
    | nil => exact Nat.le_refl _
    | cons _ _ => exact absurd trivial hl

/-- The party is at `A`, and its partner, seen from the same side, at `U`; `up` are the messages of the party
    that the partner has still to read, and `down` those of the partner. -/
def Agree (A U : Session) (up down : List Msg) : Prop :=
  (down = [] ∧ Sent U up A) ∨ (up = [] ∧ Received A down U)

namespace Agree
variable {A U : Session} {up down : List Msg} {P : Msg → Prop} {k : Msg → Session} {m : Msg}

theorem refl : Agree A A [] [] := Or.inl ⟨rfl, .nil⟩

theorem send (h : Agree (send P k) U up down) (hm : P m) : Agree (k m) U (up ++ [m]) down := by
  rcases h with ⟨hd, hs⟩ | ⟨hu, hr⟩
  · exact Or.inl ⟨hd, hs.concat hm⟩
  · cases hr
    subst hu
    exact Or.inl ⟨rfl, .cons hm .nil⟩

theorem recv (h : Agree (recv P k) U up (m :: down)) : P m ∧ Agree (k m) U up down := by
  rcases h with ⟨hd, -⟩ | ⟨hu, hr⟩
  · cases hd
  · cases hr with
    | cons hm hr => exact ⟨hm, Or.inr ⟨hu, hr⟩⟩

theorem partnerSend (h : Agree A (Session.recv P k) up down) (hm : P m) : Agree A (k m) up (down ++ [m]) := by
  rcases h with ⟨hd, hs⟩ | ⟨hu, hr⟩
  · cases hs
    subst hd
    exact Or.inr ⟨rfl, .cons hm .nil⟩
  · exact Or.inr ⟨hu, hr.concat hm⟩

theorem partnerRecv (h : Agree A (Session.send P k) (m :: up) down) : P m ∧ Agree A (k m) up down := by
  rcases h with ⟨hd, hs⟩ | ⟨hu, -⟩
  · cases hs with
    | cons hm hs => exact ⟨hm, Or.inl ⟨hd, hs⟩⟩
  · cases hu

/-- The party has nothing more to do: neither has its partner, and nothing is in flight. -/
theorem eq_of_done (hU : U.Closing) (h : Agree done U up down) : U = done ∧ up = [] ∧ down = [] := by
  rcases h with ⟨hd, hs⟩ | ⟨hu, hr⟩
  · obtain ⟨h1, h2⟩ := hs.eq_of_done hU
    exact ⟨h2, h1, hd⟩
  · cases hr
    exact ⟨rfl, hu, rfl⟩

/-- At most one message is in flight in each direction. -/
theorem length_le (hA : A.Closing) (hU : U.Closing) (h : Agree A U up down) : up.length ≤ 1 ∧ down.length ≤ 1 := by
  rcases h with ⟨rfl, hs⟩ | ⟨rfl, hr⟩
  · exact ⟨hs.length_le hU, Nat.zero_le _⟩
  · exact ⟨Nat.zero_le _, hr.length_le hA⟩

theorem not_partner_done (h : Agree A done (m :: up) down) : False := by
  rcases h with ⟨-, hs⟩ | ⟨hu, -⟩
  · cases hs
  · cases hu

end Agree

end Session

/-! ## Following a session -/

section
variable {S : Sig} {α β σ : Type}

/-- The operations of `X`, and a channel on which the program must follow the session beside the state. -/
def Sem.talk (X : Sem S σ) : Sem S (σ × Session) where
  op e u o := ∃ o', X.op e u.1 o' ∧ o = o'.map fun p => (p.1, (p.2, u.2))
  write m u o := match u.2 with
    | .send P k => (P m ∧ o = some (u.1, k m)) ∨ (¬P m ∧ o = none)
    | _ => o = none
  read n u o := match u.2 with
    | .recv P k => ∃ m, P m ∧ ((m.length ≤ n ∧ o = some (m, (u.1, k m))) ∨ (n < m.length ∧ o = none))
    | _ => o = none

section
variable {X : Sem S σ} {s : σ} {Q : α → σ × Session → Prop}

theorem wp_talk_op {e : S.Op} {k : S.Ans e → Prog S α} {A : Session} :
    wp X.talk (.op e k) Q (s, A) ↔ ∀ o, X.op e s o → ∃ r s', o = some (r, s') ∧ wp X.talk (k r) Q (s', A) := by
  rw [wp_op]
  constructor
  · intro h o ho
    obtain ⟨r, u, heq, hk⟩ := h _ ⟨o, ho, rfl⟩
    cases o with
    | none => cases heq
    | some p =>
      cases heq
      exact ⟨p.1, p.2, rfl, hk⟩
  · rintro h o ⟨o', ho, rfl⟩
    obtain ⟨r, s', rfl, hk⟩ := h o' ho
    exact ⟨r, (s', A), rfl, hk⟩

theorem wp_talk_write {m : Msg} {p : Prog S α} {A : Session} :
    wp X.talk (.write m p) Q (s, A) ↔ ∃ P k, A = .send P k ∧ P m ∧ wp X.talk p Q (s, k m) := by
  rw [wp_write]
  constructor
  · intro h
    cases A with
    | send P k =>
      by_cases hm : P m
      · obtain ⟨u, heq, hp⟩ := h _ (Or.inl ⟨hm, rfl⟩)
        cases heq
        exact ⟨P, k, rfl, hm, hp⟩
      · obtain ⟨u, heq, -⟩ := h _ (Or.inr ⟨hm, rfl⟩)
        cases heq
    | done =>
      obtain ⟨u, heq, -⟩ := h none rfl
      cases heq
    | recv P k =>
      obtain ⟨u, heq, -⟩ := h none rfl
      cases heq
  · rintro ⟨P, k, rfl, hm, hp⟩ o ho
    rcases ho with ⟨-, rfl⟩ | ⟨hn, -⟩
    · exact ⟨_, rfl, hp⟩
    · exact absurd hm hn

theorem wp_talk_read {n : Nat} {p : Msg → Prog S α} {A : Session} :
    wp X.talk (.read n p) Q (s, A) ↔
      ∃ P k, A = .recv P k ∧ ∀ m, P m → m.length ≤ n ∧ wp X.talk (p m) Q (s, k m) := by
  rw [wp_read]
  constructor
  · intro h
    cases A with
    | recv P k =>
      refine ⟨P, k, rfl, fun m hm => ?_⟩
      by_cases hn : m.length ≤ n
      · obtain ⟨m', u, heq, hp⟩ := h _ ⟨m, hm, Or.inl ⟨hn, rfl⟩⟩
        cases heq
        exact ⟨hn, hp⟩
      · obtain ⟨m', u, heq, -⟩ := h _ ⟨m, hm, Or.inr ⟨by omega, rfl⟩⟩
        cases heq
    | done =>
      obtain ⟨m', u, heq, -⟩ := h none rfl
      cases heq
    | send P k =>
      obtain ⟨m', u, heq, -⟩ := h none rfl
      cases heq
  · rintro ⟨P, k, rfl, hp⟩ o ⟨m, hm, ⟨-, rfl⟩ | ⟨hn, -⟩⟩
    · exact ⟨m, _, rfl, (hp m hm).2⟩
    · have := (hp m hm).1
      omega

theorem wp_talk_say {m : Msg} {p : Prog S α} {A : Session} (h : wp X.talk p Q (s, A)) :
    wp X.talk (.write m p) Q (s, .say m A) :=
  wp_talk_write.mpr ⟨_, _, rfl, rfl, h⟩

theorem wp_talk_hear {n : Nat} {m : Msg} {p : Msg → Prog S α} {A : Session} (hn : m.length ≤ n)
    (h : wp X.talk (p m) Q (s, A)) : wp X.talk (.read n p) Q (s, .hear m A) :=
  wp_talk_read.mpr ⟨_, _, rfl, fun _ hm => hm ▸ ⟨hn, h⟩⟩

/-- Every operation has an outcome. -/
def Sem.Total (X : Sem S σ) : Prop := ∀ e s, ∃ o, X.op e s o

/-- The other party can always say what it is to say. -/
def Session.Open : Session → Prop
  | done => True
  | send P k => ∀ m, P m → (k m).Open
  | recv P k => (∃ m, P m) ∧ ∀ m, P m → (k m).Open

/-- A program that returns in every run of a session has one. -/
theorem not_wp_talk_false {X : Sem S σ} (hX : X.Total) {A : Session} (hA : A.Open) {p : Prog S α} {s : σ} :
    ¬wp X.talk p (fun _ _ => False) (s, A) := by
  induction p generalizing s A with
  | ret a => exact fun h => wp_ret.mp h
  | fault => exact fun h => wp_fault.mp h
  | op e k ih =>
    intro h
    obtain ⟨o, ho⟩ := hX e s
    obtain ⟨r, s', -, hk⟩ := wp_talk_op.mp h o ho
    exact ih r hA hk
  | write m p ih =>
    intro h
    obtain ⟨P, k, rfl, hm, hp⟩ := wp_talk_write.mp h
    exact ih (hA m hm) hp
  | read n p ih =>
    intro h
    obtain ⟨P, k, rfl, hp⟩ := wp_talk_read.mp h
    obtain ⟨⟨m, hm⟩, hk⟩ := hA
    exact ih m (hk m hm) (hp m hm).2

/-- Every operation has an outcome, and there is nobody at the other end of the channel. -/
structure Sem.Alone (X : Sem S σ) : Prop where
  total : X.Total
  write : ∀ m s, X.write m s none
  read : ∀ n s, X.read n s none

theorem Sem.Alone.exists_runs {X : Sem S σ} (hX : X.Alone) (p : Prog S α) (s : σ) : ∃ o, Runs X p s o := by
  induction p generalizing s with
  | ret a => exact ⟨_, .ret⟩
  | fault => exact ⟨_, .fault⟩
  | op e k ih =>
    obtain ⟨o, ho⟩ := hX.total e s
    cases o with
    | none => exact ⟨_, .opFault ho⟩
    | some q =>
      obtain ⟨o', hr⟩ := ih q.1 q.2
      exact ⟨o', .op ho hr⟩
  | write m k => exact ⟨_, .writeFault (hX.write m s)⟩
  | read n k => exact ⟨_, .readFault (hX.read n s)⟩

/-- A program that returns in every run has a run in which it returns. -/
theorem Sem.Alone.returns {X : Sem S σ} (hX : X.Alone) {p : Prog S α} {Q : α → σ → Prop} {s : σ} (h : wp X p Q s) :
    ∃ a t, Runs X p s (some (a, t)) ∧ Q a t := by
  obtain ⟨o, hr⟩ := hX.exists_runs p s
  obtain ⟨a, t, rfl, hq⟩ := wp_iff_runs.mp h o hr
  exact ⟨a, t, hr, hq⟩

theorem Sem.Alone.exists_of_wp {X : Sem S σ} (hX : X.Alone) {p : Prog S α} {Q : α → σ → Prop} {s : σ} (h : wp X p Q s) :
    ∃ a t, Q a t := by
  obtain ⟨a, t, -, hq⟩ := hX.returns h
  exact ⟨a, t, hq⟩

/-! ## Local work and moves -/

/-- The program does its local operations up to the next use of the channel, or to its end. -/
inductive Quiet (X : Sem S σ) : Prog S α → σ → Prog S α → σ → Prop
  | ret {a s} : Quiet X (.ret a) s (.ret a) s
  | fault {s : σ} : Quiet X .fault s .fault s
  | write {m k s} : Quiet X (.write m k) s (.write m k) s
  | read {n k s} : Quiet X (.read n k) s (.read n k) s
  | op {e k s r s' q t} : X.op e s (some (r, s')) → Quiet X (k r) s' q t → Quiet X (.op e k) s q t
  | opFault {e k s} : X.op e s none → Quiet X (.op e k) s .fault s

/-- A use of the channel and the local work after it: the queue of incoming messages before and after, and
    what goes to the outgoing queue. A read of a message that is too long takes its first part. -/
inductive Move (X : Sem S σ) : Prog S α → σ → List Msg → Prog S α → σ → List Msg → List Msg → Prop
  | write {m k s q t inn} : Quiet X k s q t → Move X (.write m k) s inn q t inn [m]
  | read {n k s m q t inn} : m.length ≤ n → Quiet X (k m) s q t → Move X (.read n k) s (m :: inn) q t inn []
  | readPart {n k s m q t inn} : n < m.length → Quiet X (k (m.take n)) s q t →
      Move X (.read n k) s (m :: inn) q t (m.drop n :: inn) []

/-- The next thing the program does is not a local operation. -/
def Prog.IsQuiet : Prog S α → Prop
  | .op .. => False
  | _ => True

section
variable {X : Sem S σ} {Q : α → σ × Session → Prop}

theorem Quiet.isQuiet {p q : Prog S α} {s t : σ} (h : Quiet X p s q t) : q.IsQuiet := by
  induction h with
  | op _ _ ih => exact ih
  | _ => trivial

theorem Quiet.wp_talk {p q : Prog S α} {s t : σ} {A : Session} (h : Quiet X p s q t) (hp : wp X.talk p Q (s, A)) :
    wp X.talk q Q (t, A) := by
  induction h with
  | op ho _ ih =>
    obtain ⟨r, s', heq, hk⟩ := wp_talk_op.mp hp _ ho
    cases heq
    exact ih hk
  | opFault ho =>
    obtain ⟨r, s', heq, -⟩ := wp_talk_op.mp hp _ ho
    cases heq
  | _ => exact hp

/-- The local work of the program may come to an operation in a state where it is `bad`. -/
inductive Hits (X : Sem S σ) (bad : S.Op → σ → Prop) : Prog S α → σ → Prop
  | here {e k s} : bad e s → Hits X bad (.op e k) s
  | op {e k s r s'} : X.op e s (some (r, s')) → Hits X bad (k r) s' → Hits X bad (.op e k) s

/-- So may the work that comes after the next use of the channel. -/
inductive HitsNext (X : Sem S σ) (bad : S.Op → σ → Prop) : Prog S α → σ → List Msg → Prop
  | write {m k s inn} : Hits X bad k s → HitsNext X bad (.write m k) s inn
  | read {n k s m inn} : Hits X bad (k m) s → HitsNext X bad (.read n k) s (m :: inn)

/-- Local work ends, or it comes to an operation that has no outcome. -/
theorem quiet_or_hits {bad : S.Op → σ → Prop} (hX : ∀ e s, (∃ o, X.op e s o) ∨ bad e s) (p : Prog S α) (s : σ) :
    (∃ q t, Quiet X p s q t) ∨ Hits X bad p s := by
  induction p generalizing s with
  | ret a => exact Or.inl ⟨_, _, .ret⟩
  | fault => exact Or.inl ⟨_, _, .fault⟩
  | op e k ih =>
    rcases hX e s with ⟨o, ho⟩ | hbad
    · cases o with
      | none => exact Or.inl ⟨_, _, .opFault ho⟩
      | some r =>
        rcases ih r.1 r.2 with ⟨q, t, hq⟩ | hhits
        · exact Or.inl ⟨q, t, .op ho hq⟩
        · exact Or.inr (.op ho hhits)
    · exact Or.inr (.here hbad)
  | write m k => exact Or.inl ⟨_, _, .write⟩
  | read n k => exact Or.inl ⟨_, _, .read⟩

theorem not_hits {p : Prog S α} {s : σ} (h : Hits X (fun _ _ => False) p s) : False := by
  induction h with
  | here hbad => exact hbad
  | op _ _ ih => exact ih

theorem not_hitsNext {p : Prog S α} {s : σ} {inn : List Msg} (h : HitsNext X (fun _ _ => False) p s inn) : False := by
  cases h with
  | write h => exact not_hits h
  | read h => exact not_hits h

/-- Local work ends, when every operation has an outcome. -/
theorem exists_quiet (hX : ∀ e s, ∃ o, X.op e s o) (p : Prog S α) (s : σ) : ∃ q t, Quiet X p s q t := by
  have hor : (∃ q t, Quiet X p s q t) ∨ Hits X (fun _ _ => False) p s := quiet_or_hits (fun e s => Or.inl (hX e s)) p s
  exact hor.resolve_right not_hits

end

/-- The local work of a program on a machine. -/
def Machine.settle (M : Machine S σ) : Prog S α → σ → Option (Prog S α × σ)
  | .ret a, s => some (.ret a, s)
  | .fault, s => some (.fault, s)
  | .write m k, s => some (.write m k, s)
  | .read n k, s => some (.read n k, s)
  | .op e k, s => match M.op e s with
    | none => none
    | some p => M.settle (k p.1) p.2

/-- A move of a program on a machine, where it does not read a part of a message. -/
def Machine.move (M : Machine S σ) : Prog S α → σ → List Msg → Option ((Prog S α × σ) × List Msg × List Msg)
  | .write m k, s, inn => (M.settle k s).map fun p => (p, inn, [m])
  | .read n k, s, m :: inn => if m.length ≤ n then (M.settle (k m) s).map fun p => (p, inn, []) else none
  | _, _, _ => none

theorem Machine.Of.quiet {M : Machine S σ} {X : Sem S σ} (h : M.Of X) {p q : Prog S α} {s t : σ}
    (hp : M.settle p s = some (q, t)) : Quiet X p s q t := by
  induction p generalizing s with
  | ret a => cases hp; exact .ret
  | fault => cases hp; exact .fault
  | write m k => cases hp; exact .write
  | read n k => cases hp; exact .read
  | op e k ih =>
    simp only [settle] at hp
    split at hp
    · cases hp
    · rename_i r hr
      exact .op (h.op _ _ _ hr) (ih _ hp)

theorem Machine.Of.move {M : Machine S σ} {X : Sem S σ} (h : M.Of X) {p q : Prog S α} {s t : σ} {inn inn' out : List Msg}
    (hp : M.move p s inn = some ((q, t), inn', out)) : Move X p s inn q t inn' out := by
  unfold Machine.move at hp
  split at hp
  · obtain ⟨r, hr, heq⟩ := Option.map_eq_some_iff.mp hp
    cases heq
    exact .write (h.quiet hr)
  · split at hp
    · rename_i hn
      obtain ⟨r, hr, heq⟩ := Option.map_eq_some_iff.mp hp
      cases heq
      exact .read hn (h.quiet hr)
    · cases hp
  · cases hp

end

/-! ## Client and server -/

section
variable {S T : Sig} {σ τ C ρ κ : Type}

/-- What a client does for each call, whether it goes on after a result, and what the server does in a round
    of its loop, which ends with `none` to stop. A call may only start in a state of the server that `ok`
    admits. -/
structure Link (S T : Sig) (σ τ C ρ κ : Type) where
  X : Sem S σ
  Y : Sem T τ
  call : C → Prog S ρ
  more : ρ → Bool
  serve : κ → Prog T (Option κ)
  ok : κ → τ → C → Prop

/-- Where the server is: at the head of its loop, in a round, or out of the loop. -/
inductive Serving (T : Sig) (κ : Type) where
  | idle (k : κ)
  | busy (p : Prog T (Option κ))
  | stopped

/-- Where the server is when the rest of its round is the given program. -/
def Serving.of : Prog T (Option κ) → Serving T κ
  | .ret (some k) => .idle k
  | .ret none => .stopped
  | p => .busy p

/-- The calls to come, the call in progress, the calls that have returned, the server, the two queues and the
    number of requests that the server has taken up. -/
structure Config (S T : Sig) (σ τ C ρ κ : Type) where
  todo : List C
  cur : Option (C × Prog S ρ)
  cst : σ
  log : List (C × ρ)
  srv : Serving T κ
  sst : τ
  up : List Msg
  down : List Msg
  served : Nat

namespace Link
variable (L : Link S T σ τ C ρ κ)

/-- One step of the client or of the server. -/
inductive Step : Config S T σ τ C ρ κ → Config S T σ τ C ρ κ → Prop
  | start {g c todo p cst} : g.cur = none → g.todo = c :: todo → (∀ k, g.srv = .idle k → L.ok k g.sst c) →
      Quiet L.X (L.call c) g.cst p cst → Step g { g with todo := todo, cur := some (c, p), cst := cst }
  | client {g c p p' cst down out} : g.cur = some (c, p) → Move L.X p g.cst g.down p' cst down out →
      Step g { g with cur := some (c, p'), cst := cst, down := down, up := g.up ++ out }
  | finish {g c r} : g.cur = some (c, .ret r) →
      Step g { g with cur := none, log := g.log ++ [(c, r)], todo := if L.more r then g.todo else [] }
  | accept {g k p sst up out} : g.srv = .idle k → Move L.Y (L.serve k) g.sst g.up p sst up out →
      Step g { g with srv := .of p, sst := sst, up := up, down := g.down ++ out, served := g.served + 1 }
  | server {g p p' sst up out} : g.srv = .busy p → Move L.Y p g.sst g.up p' sst up out →
      Step g { g with srv := .of p', sst := sst, up := up, down := g.down ++ out }

/-- Every schedule reaches its configurations by such steps. -/
abbrev Reaches := Relation.ReflTransGen L.Step

end Link

/-- Both sides at rest, with the calls `todo` to come. -/
def Config.initial (todo : List C) (cst : σ) (k : κ) (t : τ) : Config S T σ τ C ρ κ :=
  ⟨todo, none, cst, [], .idle k, t, [], [], 0⟩

/-- The calls and results of `log`, run one after the other with effect `Eff`. -/
inductive Calls (Eff : κ → τ → C → ρ → Option κ → τ → Prop) (k₀ : κ) (t₀ : τ) :
    List (C × ρ) → Option κ → τ → Prop
  | nil : Calls Eff k₀ t₀ [] (some k₀) t₀
  | concat {log k t c r k' t'} : Calls Eff k₀ t₀ log (some k) t → Eff k t c r k' t' →
      Calls Eff k₀ t₀ (log ++ [(c, r)]) k' t'

theorem Calls.mono {Eff Eff' : κ → τ → C → ρ → Option κ → τ → Prop}
    (hE : ∀ k t c r k' t', Eff k t c r k' t' → Eff' k t c r k' t') {k₀ : κ} {t₀ : τ} {log : List (C × ρ)}
    {k : Option κ} {t : τ} (h : Calls Eff k₀ t₀ log k t) :
      Calls Eff' k₀ t₀ log k t := by
  induction h with
  | nil => exact .nil
  | concat _ he ih => exact .concat ih (hE _ _ _ _ _ _ he)

/-- For every call from a state with `Inv` there is a session that the client follows and whose dual the
    server follows, and together they have the effect `Eff`. -/
structure Link.Atomic (L : Link S T σ τ C ρ κ) (Inv : κ → τ → Prop) (Eff : κ → τ → C → ρ → Option κ → τ → Prop) : Prop where
  waits : ∀ k, ∃ n f, L.serve k = .read n f
  session : ∀ k t c, Inv k t → L.ok k t c → ∃ (A : Session) (Qc : ρ → Prop) (Qs : Option κ → τ → Prop),
    A.Closing ∧
    (∀ cst, wp L.X.talk (L.call c) (fun r u => u.2 = .done ∧ Qc r) (cst, A)) ∧
    wp L.Y.talk (L.serve k) (fun k' u => u.2 = .done ∧ Qs k' u.1) (t, A.dual) ∧
    ∀ r k' t', Qc r → Qs k' t' → Eff k t c r k' t'
  more : ∀ k t c r t', Inv k t → L.ok k t c → Eff k t c r none t' → L.more r = false
  inv : ∀ k t c r k' t', Inv k t → L.ok k t c → Eff k t c r (some k') t' → Inv k' t'

/-- Where the server is in the session of a call, as the client sees it; the last argument counts whether it
    has taken up the request. -/
inductive ServerAt (L : Link S T σ τ C ρ κ) (k : κ) (t : τ) (Qs : Option κ → τ → Prop) :
    Serving T κ → τ → Session → Nat → Prop
  | waiting {U} : wp L.Y.talk (L.serve k) (fun k' u => u.2 = .done ∧ Qs k' u.1) (t, Session.dual U) →
      ServerAt L k t Qs (.idle k) t U 0
  | working {q t' U} : q.IsQuiet → (∀ k', q ≠ .ret k') →
      wp L.Y.talk q (fun k' u => u.2 = .done ∧ Qs k' u.1) (t', Session.dual U) → ServerAt L k t Qs (.busy q) t' U 1
  | finished {k' t'} : Qs k' t' → ServerAt L k t Qs (.of (.ret k')) t' .done 1

/-- The invariant of the schedules. At the prompt the server is at rest and the queues are empty; during a
    call the two sides are at matching points of its session. -/
inductive Link.Good (L : Link S T σ τ C ρ κ) (Inv : κ → τ → Prop) (Eff : κ → τ → C → ρ → Option κ → τ → Prop) (k₀ : κ)
    (t₀ : τ) (g : Config S T σ τ C ρ κ) : Prop
  | prompt (k? : Option κ) : g.cur = none → g.up = [] → g.down = [] → g.srv = .of (.ret k?) →
      Calls Eff k₀ t₀ g.log k? g.sst → (∀ k, k? = some k → Inv k g.sst) → (k? = none → g.todo = []) →
      g.served = g.log.length →
      Good L Inv Eff k₀ t₀ g
  | talk (c : C) (p : Prog S ρ) (k : κ) (t : τ) (A U : Session) (Qc : ρ → Prop) (Qs : Option κ → τ → Prop)
      (n : Nat) : g.cur = some (c, p) → p.IsQuiet → Calls Eff k₀ t₀ g.log (some k) t → Inv k t → L.ok k t c →
      wp L.X.talk p (fun r u => u.2 = .done ∧ Qc r) (g.cst, A) → ServerAt L k t Qs g.srv g.sst U n →
      A.Closing → U.Closing → Session.Agree A U g.up g.down →
      (∀ r k' t', Qc r → Qs k' t' → Eff k t c r k' t') → g.served = g.log.length + n →
      Good L Inv Eff k₀ t₀ g

/-! ## Running a schedule -/

/-- The check of a server that waits for a request. -/
def Serving.passes (srv : Serving T κ) (check : κ → Bool) : Bool :=
  match srv with
  | .idle k => check k
  | _ => true

def Serving.isStopped : Serving T κ → Bool
  | .stopped => true
  | _ => false

theorem Serving.eq_stopped {srv : Serving T κ} (h : srv.isStopped = true) : srv = .stopped := by
  cases srv with
  | stopped => rfl
  | idle k => cases h
  | busy p => cases h

/-- The step of the server on a machine. -/
def Link.playServer (L : Link S T σ τ C ρ κ) (N : Machine T τ) (g : Config S T σ τ C ρ κ) : Option (Config S T σ τ C ρ κ) :=
  match g.srv with
  | .idle k => (N.move (L.serve k) g.sst g.up).map fun r =>
      { g with srv := .of r.1.1, sst := r.1.2, up := r.2.1, down := g.down ++ r.2.2, served := g.served + 1 }
  | .busy p => (N.move p g.sst g.up).map fun r =>
      { g with srv := .of r.1.1, sst := r.1.2, up := r.2.1, down := g.down ++ r.2.2 }
  | .stopped => none

/-- The step of the client on a machine, or of the server if the client cannot move; a call starts when it passes the
    check. -/
def Link.play (L : Link S T σ τ C ρ κ) (check : κ → τ → C → Bool) (M : Machine S σ) (N : Machine T τ)
    (g : Config S T σ τ C ρ κ) : Option (Config S T σ τ C ρ κ) :=
  match g.cur with
  | none => match g.todo with
    | [] => L.playServer N g
    | c :: todo => if g.srv.passes fun k => check k g.sst c then
        (M.settle (L.call c) g.cst).map fun r => { g with todo := todo, cur := some (c, r.1), cst := r.2 }
      else none
  | some (c, .ret r) =>
      some { g with cur := none, log := g.log ++ [(c, r)], todo := if L.more r then g.todo else [] }
  | some (c, p) => match M.move p g.cst g.down with
    | some r => some { g with cur := some (c, r.1.1), cst := r.1.2, down := r.2.1, up := g.up ++ r.2.2 }
    | none => L.playServer N g

/-- At most `n` such steps. -/
def Link.plays (L : Link S T σ τ C ρ κ) (check : κ → τ → C → Bool) (M : Machine S σ) (N : Machine T τ) :
    (n : Nat) → Config S T σ τ C ρ κ → Config S T σ τ C ρ κ
  | 0, g => g
  | n + 1, g => match L.play check M N g with
    | none => g
    | some g' => L.plays check M N n g'

section
variable {L : Link S T σ τ C ρ κ} {check : κ → τ → C → Bool} {M : Machine S σ} {N : Machine T τ}
  {g g' : Config S T σ τ C ρ κ}

theorem Link.playServer_step (hN : N.Of L.Y) (h : L.playServer N g = some g') : L.Step g g' := by
  unfold Link.playServer at h
  split at h
  · rename_i k hk
    obtain ⟨⟨⟨p, t⟩, up, out⟩, hr, rfl⟩ := Option.map_eq_some_iff.mp h
    exact .accept hk (hN.move hr)
  · rename_i p hb
    obtain ⟨⟨⟨p', t⟩, up, out⟩, hr, rfl⟩ := Option.map_eq_some_iff.mp h
    exact .server hb (hN.move hr)
  · cases h

theorem Link.play_step (hM : M.Of L.X) (hN : N.Of L.Y) (hok : ∀ k t c, check k t c = true → L.ok k t c)
    (h : L.play check M N g = some g') : L.Step g g' := by
  unfold Link.play at h
  split at h
  · rename_i hcur
    split at h
    · exact playServer_step hN h
    · rename_i c todo htodo
      obtain ⟨hpass, h⟩ := Option.ite_none_right_eq_some.mp h
      obtain ⟨⟨p, s⟩, hr, rfl⟩ := Option.map_eq_some_iff.mp h
      refine .start hcur htodo (fun k hk => hok k g.sst c ?_) (hM.quiet hr)
      rw [hk] at hpass
      exact hpass
  · rename_i c r hcur
    cases h
    exact .finish hcur
  · rename_i c p hp hcur
    split at h
    · rename_i r hr
      cases h
      exact .client hcur (hM.move hr)
    · exact playServer_step hN h

/-- What is played is a schedule. -/
theorem Link.plays_reaches (hM : M.Of L.X) (hN : N.Of L.Y) (n : Nat) (hok : ∀ k t c, check k t c = true → L.ok k t c) :
    L.Reaches g (L.plays check M N n g) := by
  induction n generalizing g with
  | zero => exact .refl
  | succ n ih =>
    unfold Link.plays
    split
    · exact .refl
    · rename_i g' hg'
      exact .head (play_step hM hN hok hg') ih

end

/-- Where all has ended no step is possible. -/
theorem Link.no_step {L : Link S T σ τ C ρ κ} {g g' : Config S T σ τ C ρ κ} (hcur : g.cur = none) (htodo : g.todo = [])
    (hsrv : g.srv = .stopped) : ¬L.Step g g' := by
  intro hs
  cases hs with
  | start _ hnext => cases htodo.symm.trans hnext
  | client hbusy => cases hcur.symm.trans hbusy
  | finish hbusy => cases hcur.symm.trans hbusy
  | accept hidle => cases hsrv.symm.trans hidle
  | server hbusy => cases hsrv.symm.trans hbusy

/-! ## The record of the calls -/

/-- The calls that a client has made, is making or will make are the first ones that it was given. -/
theorem Link.reaches_prefix {L : Link S T σ τ C ρ κ} {todo : List C} {cst : σ} {k : κ} {t : τ} {g : Config S T σ τ C ρ κ}
    (h : L.Reaches (.initial todo cst k t) g) : g.log.map Prod.fst ++ ((g.cur.map Prod.fst).toList ++ g.todo) <+: todo := by
  induction h with
  | refl => exact List.prefix_refl _
  | tail _ hs ih =>
    cases hs with
    | start hc htodo hok hq => simpa [hc, htodo] using ih
    | client hc hm => simpa [hc] using ih
    | @finish c r hc =>
      refine List.IsPrefix.trans ?_ ih
      dsimp only
      split
      · simp [hc]
      · simp [hc]
    | accept hi hm => exact ih
    | server hb hm => exact ih

/-- They are all of them, while no result has made the client stop. -/
theorem Link.reaches_all {L : Link S T σ τ C ρ κ} {todo : List C} {cst : σ} {k : κ} {t : τ} {g : Config S T σ τ C ρ κ}
    (h : L.Reaches (.initial todo cst k t) g) (hmore : ∀ x ∈ g.log, L.more x.2 = true) :
    g.log.map Prod.fst ++ ((g.cur.map Prod.fst).toList ++ g.todo) = todo := by
  induction h with
  | refl => rfl
  | tail _ hs ih =>
    cases hs with
    | start hc htodo hok hq => simpa [hc, htodo] using ih hmore
    | client hc hm => simpa [hc] using ih hmore
    | @finish c r hc =>
      have hlog := ih fun x hx => hmore x (List.mem_append_left _ hx)
      have hr : L.more r = true := hmore (c, r) (List.mem_append_right _ (List.mem_singleton_self _))
      simpa [hc, hr] using hlog
    | accept hi hm => exact ih hmore
    | server hb hm => exact ih hmore

/-! ## The server's side of a session -/

section
variable {L : Link S T σ τ C ρ κ} {Inv : κ → τ → Prop} {Eff : κ → τ → C → ρ → Option κ → τ → Prop}
variable {k₀ : κ} {t₀ : τ} {g g' : Config S T σ τ C ρ κ}

/-- What the rest of a round leads to. -/
theorem ServerAt.of_quiet {k : κ} {t : τ} {Qs : Option κ → τ → Prop} {p : Prog T (Option κ)} {t' : τ} {U : Session}
    (hq : p.IsQuiet) (hp : wp L.Y.talk p (fun k' u => u.2 = .done ∧ Qs k' u.1) (t', U.dual)) :
    ServerAt L k t Qs (.of p) t' U 1 := by
  cases p with
  | ret k' =>
    obtain ⟨hd, hQ⟩ := wp_ret.mp hp
    cases U with
    | done => exact .finished hQ
    | send P f => cases hd
    | recv P f => cases hd
  | fault => exact (wp_fault.mp hp).elim
  | op e f => exact hq.elim
  | write m f => exact .working trivial (fun _ h => by cases h) hp
  | read n f => exact .working trivial (fun _ h => by cases h) hp

/-- A move of the server in a session keeps the two sides in step. -/
theorem server_move {k : κ} {t : τ} {Qs : Option κ → τ → Prop} {p p' : Prog T (Option κ)} {s s' : τ} {A U : Session}
    {up up' down out : List Msg} (hp : wp L.Y.talk p (fun k' u => u.2 = .done ∧ Qs k' u.1) (s, U.dual))
    (hU : U.Closing) (hA : Session.Agree A U up down) (hm : Move L.Y p s up p' s' up' out) :
    ∃ U', ServerAt L k t Qs (.of p') s' U' 1 ∧ U'.Closing ∧ Session.Agree A U' up' (down ++ out) := by
  cases hm with
  | write hq =>
    obtain ⟨P, f, heq, hm, hk⟩ := wp_talk_write.mp hp
    cases U with
    | done => cases heq
    | send P' f' => cases heq
    | recv P' f' =>
      cases heq
      exact ⟨f' _, .of_quiet hq.isQuiet (hq.wp_talk hk), (hU _ hm).2.2, hA.partnerSend hm⟩
  | read hn hq =>
    obtain ⟨P, f, heq, hk⟩ := wp_talk_read.mp hp
    cases U with
    | done => cases heq
    | recv P' f' => cases heq
    | send P' f' =>
      cases heq
      obtain ⟨hm, hA'⟩ := hA.partnerRecv
      refine ⟨f' _, .of_quiet hq.isQuiet (hq.wp_talk (hk _ hm).2), (hU _ hm).2.2, ?_⟩
      rwa [List.append_nil]
  | readPart hn hq =>
    obtain ⟨P, f, heq, hk⟩ := wp_talk_read.mp hp
    cases U with
    | done => cases heq
    | recv P' f' => cases heq
    | send P' f' =>
      cases heq
      obtain ⟨hm, -⟩ := hA.partnerRecv
      have := (hk _ hm).1
      omega

/-- A move of the client in a session keeps the two sides in step. -/
theorem client_move {Qc : ρ → Prop} {p p' : Prog S ρ} {s s' : σ} {A U : Session} {up down down' out : List Msg}
    (hp : wp L.X.talk p (fun r u => u.2 = .done ∧ Qc r) (s, A)) (hA : A.Closing) (hag : Session.Agree A U up down)
    (hm : Move L.X p s down p' s' down' out) :
    ∃ A', p'.IsQuiet ∧ wp L.X.talk p' (fun r u => u.2 = .done ∧ Qc r) (s', A') ∧ A'.Closing ∧
      Session.Agree A' U (up ++ out) down' := by
  cases hm with
  | write hq =>
    obtain ⟨P, f, rfl, hm, hk⟩ := wp_talk_write.mp hp
    exact ⟨f _, hq.isQuiet, hq.wp_talk hk, (hA _ hm).2.2, hag.send hm⟩
  | read hn hq =>
    obtain ⟨P, f, rfl, hk⟩ := wp_talk_read.mp hp
    obtain ⟨hm, hag'⟩ := hag.recv
    refine ⟨f _, hq.isQuiet, hq.wp_talk (hk _ hm).2, (hA _ hm).2.2, ?_⟩
    rwa [List.append_nil]
  | readPart hn hq =>
    obtain ⟨P, f, rfl, hk⟩ := wp_talk_read.mp hp
    obtain ⟨hm, -⟩ := hag.recv
    have := (hk _ hm).1
    omega

/-- A server at the end of a session has finished its round. -/
theorem ServerAt.finished_of_done (hw : ∀ k, ∃ n f, L.serve k = .read n f) {k : κ} {t : τ} {Qs : Option κ → τ → Prop}
    {srv : Serving T κ} {s : τ} {n : Nat} (h : ServerAt L k t Qs srv s .done n) :
    ∃ k', srv = .of (.ret k') ∧ Qs k' s ∧ n = 1 := by
  cases h with
  | waiting hp =>
    obtain ⟨n, f, hk⟩ := hw k
    rw [hk] at hp
    obtain ⟨P, g, heq, -⟩ := wp_talk_read.mp hp
    cases heq
  | @working q _ _ hq hr hp =>
    cases q with
    | ret k' => exact absurd rfl (hr k')
    | fault => exact (wp_fault.mp hp).elim
    | op e f => exact hq.elim
    | write m f =>
      obtain ⟨P, g, heq, -⟩ := wp_talk_write.mp hp
      cases heq
    | read m f =>
      obtain ⟨P, g, heq, -⟩ := wp_talk_read.mp hp
      cases heq
  | @finished k' _ hQ => exact ⟨k', rfl, hQ, rfl⟩

theorem Link.Good.initial (h : Inv k₀ t₀) {todo : List C} {cst : σ} :
    L.Good Inv Eff k₀ t₀ (.initial todo cst k₀ t₀) :=
  .prompt (some k₀) rfl rfl rfl rfl .nil (fun k hk => by cases hk; exact h) (fun hk => by cases hk) rfl

/-- Every step keeps the invariant. -/
theorem Link.Atomic.good_step (hL : L.Atomic Inv Eff) (h : L.Good Inv Eff k₀ t₀ g) (hs : L.Step g g') :
    L.Good Inv Eff k₀ t₀ g' := by
  cases h with
  | prompt k? hcur hup hdown hsrv hcalls hinv hstop hserved =>
    cases hs with
    | @start c todo p cst hc htodo hok hq =>
      cases k? with
      | none =>
        rw [hstop rfl] at htodo
        cases htodo
      | some k =>
        have hok' := hok k hsrv
        obtain ⟨A, Qc, Qs, hA, hcl, hse, heff⟩ := hL.session k g.sst c (hinv k rfl) hok'
        refine .talk c p k g.sst A A Qc Qs 0 rfl hq.isQuiet hcalls (hinv k rfl) hok' (hq.wp_talk (hcl g.cst)) ?_
          hA hA ?_ heff hserved
        · show ServerAt L k g.sst Qs g.srv g.sst A 0
          rw [hsrv]
          exact .waiting hse
        · show Session.Agree A A g.up g.down
          rw [hup, hdown]
          exact .refl
    | client hc => rw [hcur] at hc; cases hc
    | finish hc => rw [hcur] at hc; cases hc
    | @accept k p sst up out hi hm =>
      obtain ⟨n, f, hk⟩ := hL.waits k
      rw [hup, hk] at hm
      cases hm
    | server hb hm =>
      rw [hsrv] at hb
      cases k? <;> cases hb
  | talk c p k t A U Qc Qs n hcur hpq hcalls hinv hok hp hsrv hA hU hag heff hserved =>
    cases hs with
    | start hc => rw [hcur] at hc; cases hc
    | client hc hm =>
      rw [hcur] at hc
      cases hc
      obtain ⟨A', hq, hp', hA', hag'⟩ := client_move hp hA hag hm
      exact .talk c _ k t A' U Qc Qs n rfl hq hcalls hinv hok hp' hsrv hA' hU hag' heff hserved
    | @finish c' r hc =>
      rw [hcur] at hc
      cases hc
      obtain ⟨hd, hQ⟩ := wp_ret.mp hp
      subst hd
      obtain ⟨rfl, hup, hdown⟩ := hag.eq_of_done hU
      obtain ⟨k', hsrv', hQs, rfl⟩ := hsrv.finished_of_done hL.waits
      have he := heff r k' g.sst hQ hQs
      refine .prompt k' rfl hup hdown hsrv' (.concat hcalls he) (fun k'' hk => ?_) (fun hk => ?_) ?_
      · subst hk
        exact hL.inv k t c r k'' g.sst hinv hok he
      · subst hk
        have hmore := hL.more k t c r g.sst hinv hok he
        simp only [hmore, Bool.false_eq_true, if_false]
      · show g.served = (g.log ++ [(c, r)]).length
        rw [hserved, List.length_append, List.length_singleton]
    | @accept k' p' sst up out hi hm =>
      generalize hv : g.srv = srv at hsrv
      cases hsrv with
      | waiting hp' =>
        rw [hv] at hi
        cases hi
        obtain ⟨U', hsrv', hU', hag'⟩ := server_move hp' hU hag hm
        exact .talk c p k _ A U' Qc Qs 1 hcur hpq hcalls hinv hok hp hsrv' hA hU' hag' heff (by simp [hserved])
      | working hq hr hp' => rw [hv] at hi; cases hi
      | finished hQ =>
        obtain ⟨n, f, hk⟩ := hL.waits k'
        rw [hk] at hm
        generalize g.up = up' at hm hag
        cases hm with
        | read hn hq => exact hag.not_partner_done.elim
        | readPart hn hq => exact hag.not_partner_done.elim
    | @server p₁ p' sst up out hb hm =>
      generalize hv : g.srv = srv at hsrv
      cases hsrv with
      | waiting hp' => rw [hv] at hb; cases hb
      | working hq hr hp' =>
        rw [hv] at hb
        cases hb
        obtain ⟨U', hsrv', hU', hag'⟩ := server_move hp' hU hag hm
        exact .talk c p k t A U' Qc Qs 1 hcur hpq hcalls hinv hok hp hsrv' hA hU' hag' heff hserved
      | @finished k' _ hQ =>
        rw [hv] at hb
        cases k' <;> cases hb

/-- Every schedule keeps the invariant: at the prompt the calls that have returned had their effects one
    after the other, the server is at rest and nothing is in flight. -/
theorem Link.Atomic.good (hL : L.Atomic Inv Eff) (h : Inv k₀ t₀) {todo : List C} {cst : σ}
    (hr : L.Reaches (.initial todo cst k₀ t₀) g) : L.Good Inv Eff k₀ t₀ g := by
  induction hr with
  | refl => exact .initial h
  | tail _ hs ih => exact hL.good_step ih hs

/-! ## No schedule gets stuck -/

/-- The server's next step may come to an operation in a state where it is `bad`. -/
inductive Link.Hits (L : Link S T σ τ C ρ κ) (bad : T.Op → τ → Prop) (g : Config S T σ τ C ρ κ) : Prop
  | accept {k} : g.srv = .idle k → HitsNext L.Y bad (L.serve k) g.sst g.up → L.Hits bad g
  | server {p} : g.srv = .busy p → HitsNext L.Y bad p g.sst g.up → L.Hits bad g

theorem Link.not_hits (h : L.Hits (fun _ _ => False) g) : False := by
  cases h with
  | accept _ h => exact not_hitsNext h
  | server _ h => exact not_hitsNext h

/-- A server that is not done can move, when a message is there in case it is to receive one. -/
theorem ServerAt.move_or_hits {bad : T.Op → τ → Prop} (hw : ∀ k, ∃ n f, L.serve k = .read n f)
    (hY : ∀ e t, (∃ o, L.Y.op e t o) ∨ bad e t) {k : κ} {t : τ} {Qs : Option κ → τ → Prop} {U : Session} {n : Nat}
    (h : ServerAt L k t Qs g.srv g.sst U n) (hU : U ≠ .done)
    (hup : ∀ P f, U = .send P f → ∃ m up, g.up = m :: up ∧ P m) : (∃ g', L.Step g g') ∨ L.Hits bad g := by
  generalize hv : g.srv = srv at h
  generalize ht : g.sst = t' at h
  cases h with
  | waiting hp =>
    obtain ⟨n, f, hk⟩ := hw k
    have hp' := hp
    rw [hk] at hp'
    obtain ⟨P, h, hd, hf⟩ := wp_talk_read.mp hp'
    cases U with
    | done => cases hd
    | recv P' h' => cases hd
    | send P' h' =>
      cases hd
      obtain ⟨m, up, hm, hPm⟩ := hup _ _ rfl
      rcases quiet_or_hits hY (f m) t with ⟨q, s, hq⟩ | hhits
      · exact Or.inl ⟨_, .accept hv (by rw [hm, hk, ht]; exact .read (hf m hPm).1 hq)⟩
      · exact Or.inr (.accept hv (by rw [hm, hk, ht]; exact .read hhits))
  | @working q _ _ hq hr hp =>
    cases q with
    | ret k' => exact absurd rfl (hr k')
    | fault => exact (wp_fault.mp hp).elim
    | op e f => exact hq.elim
    | write m f =>
      rcases quiet_or_hits hY f t' with ⟨q, s, hq⟩ | hhits
      · exact Or.inl ⟨_, .server hv (by rw [ht]; exact .write hq)⟩
      · exact Or.inr (.server hv (by rw [ht]; exact .write hhits))
    | read n f =>
      obtain ⟨P, h, hd, hf⟩ := wp_talk_read.mp hp
      cases U with
      | done => cases hd
      | recv P' h' => cases hd
      | send P' h' =>
        cases hd
        obtain ⟨m, up, hm, hPm⟩ := hup _ _ rfl
        rcases quiet_or_hits hY (f m) t' with ⟨q, s, hq⟩ | hhits
        · exact Or.inl ⟨_, .server hv (by rw [ht, hm]; exact .read (hf m hPm).1 hq)⟩
        · exact Or.inr (.server hv (by rw [ht, hm]; exact .read hhits))
  | finished hQ => exact absurd rfl hU

/-- What there is where no step is possible: the client is between two calls of which the next one may not start, with the
    server at rest and nothing in flight; or the server has come to an operation where it is `bad`. -/
theorem Link.Good.end_or_hits {bad : T.Op → τ → Prop} (hw : ∀ k, ∃ n f, L.serve k = .read n f) (hX : ∀ e s, ∃ o, L.X.op e s o)
    (hY : ∀ e t, (∃ o, L.Y.op e t o) ∨ bad e t) (h : L.Good Inv Eff k₀ t₀ g) (hend : ∀ g', ¬L.Step g g') :
    L.Hits bad g ∨ ∃ k?, g.cur = none ∧ g.up = [] ∧ g.down = [] ∧ g.srv = .of (.ret k?) ∧ Calls Eff k₀ t₀ g.log k? g.sst ∧
      (k? = none → g.todo = []) ∧ ∀ c todo, g.todo = c :: todo → ∃ k, k? = some k ∧ ¬L.ok k g.sst c := by
  cases h with
  | prompt k? hcur hup hdown hsrv hcalls hinv hstop hserved =>
    refine Or.inr ⟨k?, hcur, hup, hdown, hsrv, hcalls, hstop, fun c todo htodo => ?_⟩
    cases k? with
    | none => cases htodo.symm.trans (hstop rfl)
    | some k =>
      refine ⟨k, rfl, fun hok => ?_⟩
      obtain ⟨q, s, hq⟩ := exists_quiet hX (L.call c) g.cst
      refine hend _ (.start hcur htodo (fun k' hk' => ?_) hq)
      obtain rfl : k = k' := by
        cases hsrv.symm.trans hk'
        rfl
      exact hok
  | talk c p k t A U Qc Qs n hcur hpq hcalls hinv hok hp hsrv hA hU hag heff hserved =>
    left
    have hstep : (∃ g', L.Step g g') ∨ L.Hits bad g → L.Hits bad g := fun h =>
      h.resolve_left fun hs => hend _ hs.choose_spec
    cases p with
    | ret r => exact absurd (.finish hcur) (hend _)
    | fault => exact (wp_fault.mp hp).elim
    | op e f => exact hpq.elim
    | write m f =>
      obtain ⟨q, s, hq⟩ := exists_quiet hX f g.cst
      exact absurd (.client hcur (.write hq)) (hend _)
    | read n f =>
      obtain ⟨P, h, rfl, hf⟩ := wp_talk_read.mp hp
      -- Either an answer is there, or it is the server's turn.
      by_cases hd : g.down = []
      · rcases hag with ⟨-, hs⟩ | ⟨hu, hr⟩
        · generalize hu : g.up = up at hs
          refine hstep (hsrv.move_or_hits hw hY ?_ ?_)
          · rintro rfl
            cases hs
          · rintro P' f' rfl
            cases hs with
            | cons hPm _ => exact ⟨_, _, hu, hPm⟩
        · rw [hd] at hr
          cases hr
          exact hstep (hsrv.move_or_hits hw hY (by simp) (by simp))
      · obtain ⟨m, down, hm⟩ := List.exists_cons_of_ne_nil hd
        rw [hm] at hag
        obtain ⟨q, s, hq⟩ := exists_quiet hX (f m) g.cst
        exact absurd (.client hcur (by rw [hm]; exact .read (hf m hag.recv.1).1 hq)) (hend _)

/-- A configuration from which no step is possible has no call in progress, and the next call may not start. -/
theorem Link.Good.step (hw : ∀ k, ∃ n f, L.serve k = .read n f) (hX : ∀ e s, ∃ o, L.X.op e s o)
    (hY : ∀ e t, ∃ o, L.Y.op e t o) (h : L.Good Inv Eff k₀ t₀ g) :
    (∃ g', L.Step g g') ∨ (g.cur = none ∧ ∀ c todo, g.todo = c :: todo → ∃ k, g.srv = .idle k ∧ ¬L.ok k g.sst c) := by
  by_cases hs : ∃ g', L.Step g g'
  · exact Or.inl hs
  have hor : L.Hits (fun _ _ => False) g ∨ _ := h.end_or_hits hw hX (fun e t => Or.inl (hY e t)) fun g' hg => hs ⟨g', hg⟩
  rcases hor with hhits | ⟨k?, hcur, -, -, hsrv, -, -, hnext⟩
  · exact (Link.not_hits hhits).elim
  · refine Or.inr ⟨hcur, fun c todo htodo => ?_⟩
    obtain ⟨k, rfl, hno⟩ := hnext c todo htodo
    exact ⟨k, hsrv, hno⟩

end

/-! ## No schedule runs forever -/

/-- What a program may go on with. -/
inductive Prog.Child : Prog S α → Prog S α → Prop
  | op {e k r} : Child (k r) (.op e k)
  | opFault {e k} : Child .fault (.op e k)
  | write {m k} : Child k (.write m k)
  | read {n k m} : Child (k m) (.read n k)

theorem Prog.child_wellFounded : WellFounded (Prog.Child (S := S) (α := α)) := by
  have hfault : Acc Prog.Child (Prog.fault : Prog S α) := ⟨_, fun q h => by cases h⟩
  refine ⟨fun p => ?_⟩
  induction p with
  | ret a => exact ⟨_, fun q h => by cases h⟩
  | fault => exact hfault
  | op e k ih =>
    refine ⟨_, fun q h => ?_⟩
    cases h with
    | op => exact ih _
    | opFault => exact hfault
  | write m k ih => exact ⟨_, fun q h => by cases h; exact ih⟩
  | read n k ih => exact ⟨_, fun q h => by cases h; exact ih _⟩

theorem Quiet.child {X : Sem S σ} {p q : Prog S α} {s t : σ} (h : Quiet X p s q t) :
    q = p ∨ Relation.TransGen Prog.Child q p := by
  induction h with
  | op _ _ ih =>
    rcases ih with rfl | ih
    · exact Or.inr (.single .op)
    · exact Or.inr (ih.tail .op)
  | opFault _ => exact Or.inr (.single .opFault)
  | _ => exact Or.inl rfl

/-- A move leaves a smaller program. -/
theorem Move.child {X : Sem S σ} {p q : Prog S α} {s t : σ} {inn inn' out : List Msg}
    (h : Move X p s inn q t inn' out) : Relation.TransGen Prog.Child q p := by
  cases h with
  | write hq =>
    rcases hq.child with rfl | h
    · exact .single .write
    · exact h.tail .write
  | read _ hq =>
    rcases hq.child with rfl | h
    · exact .single .read
    · exact h.tail .read
  | readPart _ hq =>
    rcases hq.child with rfl | h
    · exact .single .read
    · exact h.tail .read

section
variable {L : Link S T σ τ C ρ κ} {Inv : κ → τ → Prop} {Eff : κ → τ → C → ρ → Option κ → τ → Prop}
variable {k₀ : κ} {t₀ : τ}

/-- What is left of a call: nothing is less than something. -/
def leftOf : Option (C × Prog S ρ) → Nat × Prog S ρ
  | none => (0, .fault)
  | some (_, p) => (1, p)

def Serving.leftOf : Serving T κ → Nat × Prog T (Option κ)
  | .busy p => (1, p)
  | _ => (0, .fault)

/-- What is left to do in a configuration: the calls to come, the call in progress, the requests that the
    server may still take up for it, and the server's round. -/
def Config.left (g : Config S T σ τ C ρ κ) : Nat × (Nat × Prog S ρ) × Nat × (Nat × Prog T (Option κ)) :=
  (g.todo.length, leftOf g.cur, g.log.length + 1 - g.served, g.srv.leftOf)

abbrev Less (a b : Nat × Prog S α) : Prop := Prod.Lex (· < ·) (Relation.TransGen Prog.Child) a b

theorem less_wellFounded : WellFounded (Less (S := S) (α := α)) :=
  WellFounded.prod_lex Nat.lt_wfRel.wf Prog.child_wellFounded.transGen

theorem left_wellFounded : WellFounded (Prod.Lex (· < · : Nat → Nat → Prop)
    (Prod.Lex (Less (S := S) (α := ρ)) (Prod.Lex (· < · : Nat → Nat → Prop) (Less (S := T) (α := Option κ))))) :=
  WellFounded.prod_lex Nat.lt_wfRel.wf
    (WellFounded.prod_lex less_wellFounded (WellFounded.prod_lex Nat.lt_wfRel.wf less_wellFounded))

theorem Serving.leftOf_of_less {p p' : Prog T (Option κ)} (h : Relation.TransGen Prog.Child p' p) :
    Less (Serving.leftOf (.of p')) (Serving.leftOf (.busy p)) := by
  cases p' with
  | ret k => cases k <;> exact .left _ _ Nat.zero_lt_one
  | _ => exact .right _ h

/-- Every step from a good configuration leaves less to do. -/
theorem Link.Good.left_lt {g g' : Config S T σ τ C ρ κ} (hw : ∀ k, ∃ n f, L.serve k = .read n f)
    (h : L.Good Inv Eff k₀ t₀ g) (hs : L.Step g g') :
    Prod.Lex (· < ·) (Prod.Lex Less (Prod.Lex (· < ·) Less)) g'.left g.left := by
  cases hs with
  | start hc htodo hok hq => exact .left _ _ (by simp [htodo])
  | client hc hm =>
    refine .right _ (.left _ _ ?_)
    rw [hc]
    exact .right _ hm.child
  | @finish c r hc =>
    by_cases hlen : (if L.more r then g.todo else []).length < g.todo.length
    · exact .left _ _ hlen
    · have heq : (if L.more r then g.todo else []).length = g.todo.length := by
        split at hlen <;> simp_all
      show Prod.Lex _ _ (_, _) (_, _)
      rw [heq]
      refine .right _ (.left _ _ ?_)
      rw [hc]
      exact .left _ _ Nat.zero_lt_one
  | @accept k₁ p sst up out hi hm =>
    refine .right _ (.right _ (.left _ _ ?_))
    have hlt : g.served < g.log.length + 1 := by
      cases h with
      | prompt k? hcur hup hdown hsrv hcalls hinv hstop hserved => omega
      | talk c p k t A U Qc Qs n hcur hpq hcalls hinv hok hp hsrv hA hU hag heff hserved =>
        generalize hv : g.srv = srv at hsrv
        cases hsrv with
        | waiting hp' => omega
        | working hq hr hp' => rw [hv] at hi; cases hi
        | @finished k' _ hQ =>
          obtain ⟨n, f, hk⟩ := hw k₁
          rw [hk] at hm
          generalize g.up = up' at hm hag
          cases hm <;> exact hag.not_partner_done.elim
    simp only
    omega
  | server hb hm =>
    refine .right _ (.right _ (.right _ ?_))
    rw [hb]
    exact Serving.leftOf_of_less hm.child

/-- No schedule runs forever. -/
theorem Link.Atomic.terminates (hL : L.Atomic Inv Eff) (h : Inv k₀ t₀) (todo : List C) (cst : σ)
    (run : Nat → Config S T σ τ C ρ κ) (h0 : run 0 = .initial todo cst k₀ t₀) :
    ¬ ∀ n, L.Step (run n) (run (n + 1)) := by
  intro hstep
  have hgood : ∀ n, L.Good Inv Eff k₀ t₀ (run n) := by
    intro n
    induction n with
    | zero => rw [h0]; exact .initial h
    | succ n ih => exact hL.good_step ih (hstep n)
  obtain ⟨_, ⟨n, rfl⟩, hmin⟩ := left_wellFounded.has_min (Set.range fun n => (run n).left) ⟨_, 0, rfl⟩
  exact hmin _ ⟨n + 1, rfl⟩ ((hgood n).left_lt hL.waits (hstep n))

end

end

end

end Interact
