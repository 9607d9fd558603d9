import MiniFs.Lib.Refine

/-! # Two forms of a server's state

A server may hold what it serves in one form or in another. Where the operations on the second form do no more than those on
the first, every schedule of a link with the second one is a schedule with the first: the configurations are the same but for
the state of the server (`Link.Sim`). With a simulation in both directions neither the client nor anyone who looks at the
queues can tell the forms apart. -/

namespace Interact

section
variable {S : Sig} {α σ τ : Type} {ok : S.Op → Prop} {ans : ∀ e, S.Ans e → Prop} {X : Sem S σ} {Y : Sem S τ}
variable {R : σ → τ → Prop} {Q : α → Prop} {p q : Prog S α} {s : σ} {t t' : τ} {inn inn' out : List Msg}

theorem Sem.Sim.quiet (h : X.Sim ok ans Y R) (hp : p.Within ok ans Q) (hR : R s t) (hq : Quiet Y p t q t') :
    ∃ s', Quiet X p s q s' ∧ q.Within ok ans Q ∧ R s' t' := by
  induction hq generalizing s with
  | ret => exact ⟨s, .ret, hp, hR⟩
  | fault => exact ⟨s, .fault, hp, hR⟩
  | write => exact ⟨s, .write, hp, hR⟩
  | read => exact ⟨s, .read, hp, hR⟩
  | op hy _ ih =>
    rcases h.op _ s _ _ hp.1 hR hy with ⟨heq, -⟩ | ⟨r, s₁, t₁, heq, ha, hx, hR₁⟩
    · cases heq
    cases heq
    obtain ⟨s', hq, hw, hR'⟩ := ih (hp.2 _ ha) hR₁
    exact ⟨s', .op hx hq, hw, hR'⟩
  | opFault hy =>
    rcases h.op _ s _ _ hp.1 hR hy with ⟨-, hx⟩ | ⟨r, s₁, t₁, heq, -⟩
    · exact ⟨s, .opFault hx, trivial, hR⟩
    · cases heq

theorem Sem.Sim.move (h : X.Sim ok ans Y R) (hp : p.Within ok ans Q) (hR : R s t) (hm : Move Y p t inn q t' inn' out) :
    ∃ s', Move X p s inn q s' inn' out ∧ q.Within ok ans Q ∧ R s' t' := by
  cases hm with
  | @write _ k _ _ _ _ hq =>
    obtain ⟨s', hq, hw, hR'⟩ := h.quiet (p := k) hp hR hq
    exact ⟨s', .write hq, hw, hR'⟩
  | read hn hq =>
    obtain ⟨s', hq, hw, hR'⟩ := h.quiet (hp _) hR hq
    exact ⟨s', .read hn hq, hw, hR'⟩
  | readPart hn hq =>
    obtain ⟨s', hq, hw, hR'⟩ := h.quiet (hp _) hR hq
    exact ⟨s', .readPart hn hq, hw, hR'⟩

end

section
variable {S T : Sig} {σ τ υ C ρ κ : Type} {ok : T.Op → Prop} {ans : ∀ e, T.Ans e → Prop} {K : κ → Prop}
variable {L : Link S T σ τ C ρ κ} {M : Link S T σ υ C ρ κ} {R : τ → υ → Prop} {g : Config S T σ τ C ρ κ} {u : υ}
variable {g₁ : Config S T σ υ C ρ κ}

/-- The same configuration with another state of the server. -/
def Config.hold (g : Config S T σ τ C ρ κ) (u : υ) : Config S T σ υ C ρ κ := { g with sst := u }

/-- What the rest of the server's round does, and where the next one starts. -/
def Serving.Within (ok : T.Op → Prop) (ans : ∀ e, T.Ans e → Prop) (K : κ → Prop) : Serving T κ → Prop
  | .idle k => K k
  | .busy p => p.Within ok ans fun o => ∀ k, o = some k → K k
  | .stopped => True

theorem Serving.within_of {p : Prog T (Option κ)} (h : p.Within ok ans fun o => ∀ k, o = some k → K k) :
    (Serving.of p).Within ok ans K := by
  unfold Serving.of
  split
  · exact h _ rfl
  · trivial
  · exact h

/-- Two links that differ in the state of the server, where `L` can do what `M` can. -/
structure Link.Sim (ok : T.Op → Prop) (ans : ∀ e, T.Ans e → Prop) (K : κ → Prop) (L : Link S T σ τ C ρ κ)
    (M : Link S T σ υ C ρ κ) (R : τ → υ → Prop) : Prop where
  client : M.X = L.X
  call : M.call = L.call
  more : M.more = L.more
  serve : M.serve = L.serve
  ops : L.Y.Sim ok ans M.Y R
  within : ∀ k, K k → (L.serve k).Within ok ans fun o => ∀ k', o = some k' → K k'
  ok : ∀ k t u c, R t u → M.ok k u c → L.ok k t c

/-- A step of the one link is a step of the other one. -/
theorem Link.Sim.step (h : Link.Sim ok ans K L M R) (hR : R g.sst u) (hK : g.srv.Within ok ans K)
    (hs : M.Step (g.hold u) g₁) : ∃ g' u', g₁ = g'.hold u' ∧ L.Step g g' ∧ R g'.sst u' ∧ g'.srv.Within ok ans K := by
  cases hs with
  | @start c todo p cst hcur htodo hok hq =>
    refine ⟨{ g with todo := todo, cur := some (c, p), cst := cst }, u, rfl, ?_, hR, hK⟩
    exact .start hcur htodo (fun k hk => h.ok k _ u c hR (hok k hk)) (h.client ▸ h.call ▸ hq)
  | @client c p p' cst down out hcur hm =>
    exact ⟨{ g with cur := some (c, p'), cst := cst, down := down, up := g.up ++ out }, u, rfl,
      .client hcur (h.client ▸ hm), hR, hK⟩
  | @finish c r hcur =>
    refine ⟨{ g with cur := none, log := g.log ++ [(c, r)], todo := if L.more r then g.todo else [] }, u, ?_,
      .finish hcur, hR, hK⟩
    rw [h.more]
    rfl
  | @accept k p sst up out hsrv hm =>
    have hk : K k := by
      have hsrv : g.srv = .idle k := hsrv
      rw [hsrv] at hK
      exact hK
    obtain ⟨t', hm, hw, hR'⟩ := h.ops.move (h.within k hk) hR (h.serve ▸ hm)
    exact ⟨{ g with srv := .of p, sst := t', up := up, down := g.down ++ out, served := g.served + 1 }, sst, rfl,
      .accept hsrv hm, hR', Serving.within_of hw⟩
  | @server p p' sst up out hsrv hm =>
    have hp : p.Within ok ans fun o => ∀ k, o = some k → K k := by
      have hsrv : g.srv = .busy p := hsrv
      rw [hsrv] at hK
      exact hK
    obtain ⟨t', hm, hw, hR'⟩ := h.ops.move hp hR hm
    exact ⟨{ g with srv := .of p', sst := t', up := up, down := g.down ++ out }, sst, rfl, .server hsrv hm, hR',
      Serving.within_of hw⟩

/-- A schedule of the one link is a schedule of the other one. -/
theorem Link.Sim.reaches (h : Link.Sim ok ans K L M R) (hR : R g.sst u) (hK : g.srv.Within ok ans K)
    (hr : M.Reaches (g.hold u) g₁) :
    ∃ g' u', g₁ = g'.hold u' ∧ L.Reaches g g' ∧ R g'.sst u' ∧ g'.srv.Within ok ans K := by
  induction hr with
  | refl => exact ⟨g, u, rfl, .refl, hR, hK⟩
  | tail _ hs ih =>
    obtain ⟨g', u', rfl, hr, hR', hK'⟩ := ih
    obtain ⟨g'', u'', rfl, hs, hR'', hK''⟩ := h.step hR' hK' hs
    exact ⟨g'', u'', rfl, hr.tail hs, hR'', hK''⟩

end

end Interact
