import MiniFs.Lib.Dialogue

/-! # Two programs over two byte streams

The client and the server of a `Link` over two streams of bytes, which keep the order of the bytes but not the bounds of
the messages: a read takes the first of the bytes that are pending. When no read takes less than it could, a schedule
over the streams is one over the queues of messages (`Link.Atomic.stream_reaches`), as each side waits for the other's
answer before it sends again. -/

namespace Interact

section
variable {S T : Sig} {σ τ C ρ κ α : Type}

/-- A use of the channel and the local work after it: the incoming bytes before and after, and those that go out. `R n m rest`
    admits a read of at most `n` bytes that takes `m` and leaves `rest`. -/
inductive StreamMove (R : Nat → Msg → Msg → Prop) (X : Sem S σ) : Prog S α → σ → Msg → Prog S α → σ → Msg → Msg → Prop
  | write {m k s q t inn} : Quiet X k s q t → StreamMove R X (.write m k) s inn q t inn m
  | read {n k s m q t rest} : m ≠ [] → m.length ≤ n → R n m rest → Quiet X (k m) s q t →
      StreamMove R X (.read n k) s (m ++ rest) q t rest []

/-- The calls to come, the call in progress, the calls that have returned, the server, the bytes in the two streams and
    the number of requests that the server has taken up. -/
structure StreamConfig (S T : Sig) (σ τ C ρ κ : Type) where
  todo : List C
  cur : Option (C × Prog S ρ)
  cst : σ
  log : List (C × ρ)
  srv : Serving T κ
  sst : τ
  up : Msg
  down : Msg
  served : Nat

/-- One step of the client or of the server. -/
inductive Link.StreamStep (L : Link S T σ τ C ρ κ) (R : Nat → Msg → Msg → Prop) :
    StreamConfig S T σ τ C ρ κ → StreamConfig S T σ τ C ρ κ → Prop
  | start {g c todo p cst} : g.cur = none → g.todo = c :: todo → (∀ k, g.srv = .idle k → L.ok k g.sst c) →
      Quiet L.X (L.call c) g.cst p cst → StreamStep L R g { g with todo := todo, cur := some (c, p), cst := cst }
  | client {g c p p' cst down out} : g.cur = some (c, p) → StreamMove R L.X p g.cst g.down p' cst down out →
      StreamStep L R g { g with cur := some (c, p'), cst := cst, down := down, up := g.up ++ out }
  | finish {g c r} : g.cur = some (c, .ret r) →
      StreamStep L R g { g with cur := none, log := g.log ++ [(c, r)], todo := if L.more r then g.todo else [] }
  | accept {g k p sst up out} : g.srv = .idle k → StreamMove R L.Y (L.serve k) g.sst g.up p sst up out →
      StreamStep L R g { g with srv := .of p, sst := sst, up := up, down := g.down ++ out, served := g.served + 1 }
  | server {g p p' sst up out} : g.srv = .busy p → StreamMove R L.Y p g.sst g.up p' sst up out →
      StreamStep L R g { g with srv := .of p', sst := sst, up := up, down := g.down ++ out }

/-- Any read that the streams allow. -/
def AnyRead (_ : Nat) (_ _ : Msg) : Prop := True

/-- A read takes all that is pending, or as much as it asks for. -/
def WholeRead (n : Nat) (m rest : Msg) : Prop := rest = [] ∨ m.length = n

/-- The bytes of the messages in flight. -/
def Config.bytes (g : Config S T σ τ C ρ κ) : StreamConfig S T σ τ C ρ κ :=
  ⟨g.todo, g.cur, g.cst, g.log, g.srv, g.sst, g.up.flatten, g.down.flatten, g.served⟩

/-! ## Moves -/

/-- A read takes something. -/
theorem StreamMove.pending {R : Nat → Msg → Msg → Prop} {X : Sem S σ} {n : Nat} {k : Msg → Prog S α} {q : Prog S α} {s t : σ}
    {bytes rest out : Msg} (h : StreamMove R X (.read n k) s bytes q t rest out) : bytes ≠ [] := by
  cases h with
  | read hm _ _ _ => exact List.append_ne_nil_of_left_ne_nil hm _

/-- Where at most one message is pending, a whole read is a read of it or of its first part. -/
theorem StreamMove.move {X : Sem S σ} {p q : Prog S α} {s t : σ} {inn : List Msg} {bytes rest out : Msg}
    (h : StreamMove WholeRead X p s bytes q t rest out) (hinn : inn.length ≤ 1) (hbytes : bytes = inn.flatten) :
    ∃ inn' out', Move X p s inn q t inn' out' ∧ rest = inn'.flatten ∧ out = out'.flatten := by
  cases h with
  | write hq => exact ⟨inn, [out], .write hq, hbytes, by simp⟩
  | @read n k _ m _ _ rest hm hn hR hq =>
    match inn, hinn with
    | [], _ => exact absurd (List.append_eq_nil_iff.mp hbytes).1 hm
    | [m'], _ =>
      obtain rfl : m ++ rest = m' := by simpa using hbytes
      by_cases hrest : rest = []
      · subst hrest
        rw [List.append_nil]
        exact ⟨[], [], .read hn hq, rfl, rfl⟩
      · have hlen : m.length = n := hR.resolve_left hrest
        have htake : (m ++ rest).take n = m := by rw [← hlen, List.take_left]
        have hdrop : (m ++ rest).drop n = rest := by rw [← hlen, List.drop_left]
        have hlt : n < (m ++ rest).length := by
          have := List.length_pos_iff.mpr hrest
          rw [List.length_append]
          omega
        refine ⟨[(m ++ rest).drop n], [], .readPart hlt (htake.symm ▸ hq), ?_, rfl⟩
        rw [hdrop]
        simp
    | _ :: _ :: _, hlen => simp at hlen

/-- A read asks for no less than a message, and no message is empty. -/
def Prog.Fits (p : Prog S α) (inn : List Msg) : Prop := ∀ n f, p = .read n f → ∀ m ∈ inn, m ≠ [] ∧ m.length ≤ n

/-- A read of a message is a whole read of its bytes. -/
theorem Move.stream {X : Sem S σ} {p q : Prog S α} {s t : σ} {inn inn' out : List Msg} (h : Move X p s inn q t inn' out)
    (hinn : inn.length ≤ 1) (hfits : p.Fits inn) :
    StreamMove WholeRead X p s inn.flatten q t inn'.flatten out.flatten := by
  cases h with
  | write hq =>
    rw [List.flatten_singleton]
    exact .write hq
  | @read _ _ _ m _ _ _ hn hq =>
    rw [List.length_cons] at hinn
    obtain rfl : inn' = [] := List.eq_nil_of_length_eq_zero (by omega)
    exact .read (hfits _ _ rfl m List.mem_cons_self).1 hn (Or.inl rfl) hq
  | readPart hn _ =>
    have := (hfits _ _ rfl _ List.mem_cons_self).2
    omega

/-! ## Whole reads -/

section
variable {L : Link S T σ τ C ρ κ} {Inv : κ → τ → Prop} {Eff : κ → τ → C → ρ → Option κ → τ → Prop}
variable {k₀ : κ} {t₀ : τ} {g g' : Config S T σ τ C ρ κ} {h h' : StreamConfig S T σ τ C ρ κ}

theorem Link.Good.length_le (hg : L.Good Inv Eff k₀ t₀ g) : g.up.length ≤ 1 ∧ g.down.length ≤ 1 := by
  cases hg with
  | prompt _ _ hup hdown =>
    rw [hup, hdown]
    exact ⟨Nat.zero_le _, Nat.zero_le _⟩
  | talk _ _ _ _ _ _ _ _ _ _ _ _ _ _ _ _ hA hU hag => exact hag.length_le hA hU

/-- A step over the streams is one over the queues. -/
theorem Link.Good.stream_step (hg : L.Good Inv Eff k₀ t₀ g) (hs : L.StreamStep WholeRead h h') (hb : h = g.bytes) :
    ∃ g', L.Step g g' ∧ h' = g'.bytes := by
  obtain ⟨hup, hdown⟩ := hg.length_le
  subst hb
  cases hs with
  | start hc htodo hok hq => exact ⟨_, .start hc htodo hok hq, rfl⟩
  | client hc hm =>
    obtain ⟨inn', out', hm', rfl, rfl⟩ := hm.move hdown rfl
    refine ⟨_, .client hc hm', ?_⟩
    simp only [Config.bytes, List.flatten_append]
  | finish hc => exact ⟨_, .finish hc, rfl⟩
  | accept hi hm =>
    obtain ⟨inn', out', hm', rfl, rfl⟩ := hm.move hup rfl
    refine ⟨_, .accept hi hm', ?_⟩
    simp only [Config.bytes, List.flatten_append]
  | server hb hm =>
    obtain ⟨inn', out', hm', rfl, rfl⟩ := hm.move hup rfl
    refine ⟨_, .server hb hm', ?_⟩
    simp only [Config.bytes, List.flatten_append]

theorem client_fits {X : Sem S σ} {Q : ρ → σ × Session → Prop} {p : Prog S ρ} {t : σ} {A U : Session} {up down : List Msg}
    (hp : wp X.talk p Q (t, A)) (hA : A.Closing) (hlen : down.length ≤ 1) (hag : Session.Agree A U up down) :
    p.Fits down := by
  rintro n f rfl m hm
  obtain ⟨P, k, rfl, hf⟩ := wp_talk_read.mp hp
  cases down with
  | nil => exact absurd hm List.not_mem_nil
  | cons m' down =>
    rw [List.length_cons] at hlen
    obtain rfl : down = [] := List.eq_nil_of_length_eq_zero (by omega)
    obtain rfl := List.mem_singleton.mp hm
    exact ⟨(hA _ hag.recv.1).1, (hf _ hag.recv.1).1⟩

theorem server_fits {Y : Sem T τ} {Q : Option κ → τ × Session → Prop} {p : Prog T (Option κ)} {t : τ} {A U : Session}
    {up down : List Msg} (hp : wp Y.talk p Q (t, U.dual)) (hU : U.Closing) (hlen : up.length ≤ 1)
    (hag : Session.Agree A U up down) : p.Fits up := by
  rintro n f rfl m hm
  obtain ⟨P, k, heq, hf⟩ := wp_talk_read.mp hp
  cases U with
  | done => cases heq
  | recv _ _ => cases heq
  | send P' k' =>
    cases heq
    cases up with
    | nil => exact absurd hm List.not_mem_nil
    | cons m' up =>
      rw [List.length_cons] at hlen
      obtain rfl : up = [] := List.eq_nil_of_length_eq_zero (by omega)
      obtain rfl := List.mem_singleton.mp hm
      exact ⟨(hU _ hag.partnerRecv.1).1, (hf _ hag.partnerRecv.1).1⟩

theorem fits_nil {p : Prog S α} {inn : List Msg} (h : inn = []) : p.Fits inn :=
  fun _ _ _ _ hm => absurd (h ▸ hm) List.not_mem_nil

/-- A step over the queues is one over the streams. -/
theorem Link.Good.step_stream (hg : L.Good Inv Eff k₀ t₀ g) (hs : L.Step g g') :
    L.StreamStep WholeRead g.bytes g'.bytes := by
  obtain ⟨hup, hdown⟩ := hg.length_le
  cases hs with
  | start hc htodo hok hq => exact .start hc htodo hok hq
  | @client c p p' cst down out hc hm =>
    have hfits : p.Fits g.down := by
      cases hg with
      | prompt _ hcur =>
        rw [hcur] at hc
        cases hc
      | talk c' p₁ k t A U Qc Qs n hcur hpq hcalls hinv hok hp hsrv hA hU hag =>
        rw [hcur] at hc
        cases hc
        exact client_fits hp hA hdown hag
    have hbytes := hm.stream hdown hfits
    simp only [Config.bytes, List.flatten_append]
    exact .client hc hbytes
  | finish hc => exact .finish hc
  | @accept k p sst up out hi hm =>
    have hfits : (L.serve k).Fits g.up := by
      cases hg with
      | prompt _ _ hup0 => exact fits_nil hup0
      | talk c' p₁ k' t A U Qc Qs n hcur hpq hcalls hinv hok hp hsrv hA hU hag =>
        generalize hv : g.srv = srv at hsrv
        cases hsrv with
        | waiting hp' =>
          rw [hv] at hi
          cases hi
          exact server_fits hp' hU hup hag
        | working hq hr hp' =>
          rw [hv] at hi
          cases hi
        | finished _ =>
          refine fits_nil (List.eq_nil_iff_forall_not_mem.mpr fun m hm => ?_)
          cases hu : g.up with
          | nil => exact List.not_mem_nil (hu ▸ hm)
          | cons m' up' => exact (hu ▸ hag).not_partner_done
    have hbytes := hm.stream hup hfits
    simp only [Config.bytes, List.flatten_append]
    exact .accept hi hbytes
  | @server p p' sst up out hb hm =>
    have hfits : p.Fits g.up := by
      cases hg with
      | prompt _ _ hup0 => exact fits_nil hup0
      | talk c' p₁ k' t A U Qc Qs n hcur hpq hcalls hinv hok hp hsrv hA hU hag =>
        generalize hv : g.srv = srv at hsrv
        cases hsrv with
        | waiting hp' =>
          rw [hv] at hb
          cases hb
        | working hq hr hp' =>
          rw [hv] at hb
          cases hb
          exact server_fits hp' hU hup hag
        | @finished k'' _ _ =>
          rw [hv] at hb
          cases k'' <;> cases hb
    have hbytes := hm.stream hup hfits
    simp only [Config.bytes, List.flatten_append]
    exact .server hb hbytes

/-- Schedules over the streams are schedules over the queues. -/
theorem Link.Atomic.stream_reaches (hL : L.Atomic Inv Eff) (hinv : Inv k₀ t₀) {todo : List C} {cst : σ}
    (hr : Relation.ReflTransGen (L.StreamStep WholeRead) (Config.initial todo cst k₀ t₀).bytes h) :
    ∃ g, L.Reaches (.initial todo cst k₀ t₀) g ∧ h = g.bytes := by
  induction hr with
  | refl => exact ⟨_, .refl, rfl⟩
  | tail _ hs ih =>
    obtain ⟨g, hg, rfl⟩ := ih
    obtain ⟨g', hstep, rfl⟩ := (hL.good hinv hg).stream_step hs rfl
    exact ⟨g', hg.tail hstep, rfl⟩

/-- What is left to do: what the queues hold does not count. -/
def StreamConfig.left (h : StreamConfig S T σ τ C ρ κ) : Nat × (Nat × Prog S ρ) × Nat × (Nat × Prog T (Option κ)) :=
  (h.todo.length, leftOf h.cur, h.log.length + 1 - h.served, h.srv.leftOf)

/-- No schedule over the streams runs forever. -/
theorem Link.Atomic.stream_terminates (hL : L.Atomic Inv Eff) (hinv : Inv k₀ t₀) {todo : List C} {cst : σ}
    (run : Nat → StreamConfig S T σ τ C ρ κ) (h0 : run 0 = (Config.initial todo cst k₀ t₀).bytes) :
    ¬∀ n, L.StreamStep WholeRead (run n) (run (n + 1)) := by
  intro hstep
  have hreach : ∀ n, Relation.ReflTransGen (L.StreamStep WholeRead) (Config.initial todo cst k₀ t₀).bytes (run n) := by
    intro n
    induction n with
    | zero => rw [h0]
    | succ n ih => exact ih.tail (hstep n)
  obtain ⟨_, ⟨n, rfl⟩, hmin⟩ := left_wellFounded.has_min (Set.range fun n => (run n).left) ⟨_, 0, rfl⟩
  obtain ⟨g, hg, heq⟩ := hL.stream_reaches hinv (hreach n)
  have hgood := hL.good hinv hg
  obtain ⟨g', hs, heq'⟩ := hgood.stream_step (hstep n) heq
  refine hmin _ ⟨n + 1, rfl⟩ ?_
  dsimp only
  rw [heq, heq']
  exact hgood.left_lt hL.waits hs

end

end

end Interact
