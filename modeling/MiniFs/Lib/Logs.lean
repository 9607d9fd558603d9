import MiniFs.Lib.Dialogue
import Mathlib.Data.List.Induction

/-! # The log of a link

The calls of a log are calls up to each point of it. Where both sides are at rest a link goes on as if it started there, so
that what is called after it starts from the state of that point. -/

namespace Interact

section
variable {S T : Sig} {σ τ C ρ κ : Type} {L : Link S T σ τ C ρ κ} {Inv : κ → τ → Prop}
variable {Eff : κ → τ → C → ρ → Option κ → τ → Prop} {k₀ : κ} {t₀ t t' : τ} {k k' : Option κ} {g g' : Config S T σ τ C ρ κ}
variable {log more : List (C × ρ)} {n : Nat}

theorem Calls.last {c : C} {r : ρ} (h : Calls Eff k₀ t₀ (log ++ [(c, r)]) k' t') :
    ∃ k t, Calls Eff k₀ t₀ log (some k) t ∧ Eff k t c r k' t' := by
  generalize hlog : log ++ [(c, r)] = all at h
  cases h with
  | nil => simp at hlog
  | concat h he =>
    obtain ⟨rfl, heq⟩ := List.append_inj' hlog rfl
    cases heq
    exact ⟨_, _, h, he⟩

theorem Calls.first (h : Calls Eff k₀ t₀ (log ++ more) k' t') : ∃ k t, Calls Eff k₀ t₀ log k t := by
  induction more using List.reverseRecOn generalizing k' t' with
  | nil =>
    rw [List.append_nil] at h
    exact ⟨_, _, h⟩
  | append_singleton more x ih =>
    rw [← List.append_assoc] at h
    obtain ⟨k, t, h, -⟩ := h.last
    exact ih h

/-! ## Going on from a prompt -/

/-- Without the first `n` calls of the log. -/
def Config.later (n : Nat) (g : Config S T σ τ C ρ κ) : Config S T σ τ C ρ κ :=
  { g with log := g.log.drop n, served := g.served - n }

theorem Link.Step.later (h : L.Step g g') (hlog : n ≤ g.log.length) (hserved : n ≤ g.served) :
    L.Step (g.later n) (g'.later n) ∧ n ≤ g'.log.length ∧ n ≤ g'.served := by
  cases h with
  | start hcur htodo hok hq => exact ⟨.start hcur htodo hok hq, hlog, hserved⟩
  | client hcur hm => exact ⟨.client hcur hm, hlog, hserved⟩
  | @finish c r hcur =>
    refine ⟨?_, by rw [List.length_append]; omega, hserved⟩
    have hstep := Link.Step.finish (L := L) (g := g.later n) hcur
    have hdrop : (g.log ++ [(c, r)]).drop n = g.log.drop n ++ [(c, r)] := List.drop_append_of_le_length hlog
    unfold Config.later at hstep ⊢
    dsimp only at hstep ⊢
    rw [hdrop]
    exact hstep
  | accept hsrv hm =>
    refine ⟨?_, hlog, Nat.le_succ_of_le hserved⟩
    have hstep := Link.Step.accept (L := L) (g := g.later n) hsrv hm
    have hsub : g.served + 1 - n = g.served - n + 1 := by omega
    unfold Config.later at hstep ⊢
    dsimp only at hstep ⊢
    rw [hsub]
    exact hstep
  | server hsrv hm => exact ⟨.server hsrv hm, hlog, hserved⟩

theorem Link.reaches_later (h : L.Reaches g g') (hlog : n ≤ g.log.length) (hserved : n ≤ g.served) :
    L.Reaches (g.later n) (g'.later n) ∧ n ≤ g'.log.length ∧ n ≤ g'.served := by
  induction h with
  | refl => exact ⟨.refl, hlog, hserved⟩
  | tail _ hs ih =>
    obtain ⟨hr, hlog', hserved'⟩ := ih
    obtain ⟨hs', hlog'', hserved''⟩ := hs.later hlog' hserved'
    exact ⟨hr.tail hs', hlog'', hserved''⟩

theorem Link.reaches_log (h : L.Reaches g g') : ∃ more, g'.log = g.log ++ more := by
  induction h with
  | refl => exact ⟨[], (List.append_nil _).symm⟩
  | @tail g₁ g₂ _ hs ih =>
    obtain ⟨more, hmore⟩ := ih
    cases hs with
    | @finish c r hcur => exact ⟨more ++ [(c, r)], by show g₁.log ++ _ = _; rw [hmore, List.append_assoc]⟩
    | start _ _ _ _ => exact ⟨more, hmore⟩
    | client _ _ => exact ⟨more, hmore⟩
    | accept _ _ => exact ⟨more, hmore⟩
    | server _ _ => exact ⟨more, hmore⟩

/-- What is called between two prompts is called from the state of the first one on. -/
theorem Link.Atomic.calls_between (hL : L.Atomic Inv Eff) (hinv : Inv k₀ t₀) {todo : List C} {cst : σ}
    (hr : L.Reaches (.initial todo cst k₀ t₀) g) (hr' : L.Reaches g g') (hcur : g.cur = none) (hcur' : g'.cur = none) :
    ∃ more k k', g'.log = g.log ++ more ∧ Calls Eff k g.sst more k' g'.sst := by
  cases hL.good hinv hr with
  | talk c p k t A U Qc Qs n hc =>
    rw [hcur] at hc
    cases hc
  | prompt k? _ hup hdown hsrv hcalls hkeeps hstop hserved =>
    cases k? with
    | none =>
      -- The server has stopped and there are no more calls.
      have hend : ∀ g'', ¬L.Step g g'' := fun g'' hs => by
        have hidle : g.srv = .stopped := hsrv
        have htodo := hstop rfl
        cases hs with
        | start _ h _ _ => cases htodo.symm.trans h
        | client h _ => cases hcur.symm.trans h
        | finish h => cases hcur.symm.trans h
        | accept h _ => cases hidle.symm.trans h
        | server h _ => cases hidle.symm.trans h
      rcases Relation.ReflTransGen.cases_head hr' with rfl | ⟨g'', hs, -⟩
      · exact ⟨[], k₀, some k₀, (List.append_nil _).symm, .nil⟩
      · exact absurd hs (hend g'')
    | some k =>
      obtain ⟨hlater, -, -⟩ := Link.reaches_later hr' (Nat.le_refl g.log.length) (Nat.le_of_eq hserved.symm)
      have hstart : g.later g.log.length = .initial g.todo g.cst k g.sst := by
        obtain ⟨todo, cur, cst, log, srv, sst, up, down, served⟩ := g
        obtain rfl : served = log.length := hserved
        subst hcur hup hdown hsrv
        unfold Config.later Config.initial
        dsimp only
        rw [List.drop_length, Nat.sub_self]
        rfl
      rw [hstart] at hlater
      obtain ⟨more, hmore⟩ := Link.reaches_log hr'
      have hlog : (g'.later g.log.length).log = more := by
        show g'.log.drop _ = more
        rw [hmore, List.drop_left]
      cases hL.good (hkeeps k rfl) hlater with
      | talk c p k t A U Qc Qs n hc => cases hcur'.symm.trans hc
      | prompt k' _ _ _ _ hcalls' _ _ _ =>
        rw [hlog] at hcalls'
        exact ⟨more, k, k', hmore, hcalls'⟩

end

end Interact
