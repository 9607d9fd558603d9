import MiniFs.Alloc
import MiniFs.Theorems.BlockStore

/-! # The end of a connection

The last thing that the file server says to the disk server is E. After any block transfers and in any order of the steps
both loops then come to their ends together: nothing is left in the queues, and the disk server has gone out of its loop. -/

namespace MiniFs
open Interact Memory

/-- A block transfer, or the closing of the connection. -/
abbrev DiskCall := Option BlockCall

def DiskCall.run : DiskCall → Prog noOps (Option Block)
  | some x => do .ret (some (← x.run))
  | none => do
    Alloc.closeDisk 1
    .ret none

/-- A connection of the file server to the disk server, up to its closing. -/
def diskLink : Link noOps noOps Unit Unit DiskCall (Option Block) Disk where
  X := noSem
  Y := noSem
  call := DiskCall.run
  more r := r.isSome
  serve := servLoop
  ok _ _ _ := True

/-- A transfer has its effect; the closing ends both loops. -/
def DiskEff (d : Disk) (t : Unit) : DiskCall → Option Block → Option Disk → Unit → Prop
  | some x, r, o, t' => ∃ b, r = some b ∧ BlockEff d t x b o t'
  | none, r, o, _ => r = none ∧ o = none

/-- What is said at the end. -/
def closeSession : Session := .say (packet (lit "E")) (.hear (packet (lit "BYE")) .done)

theorem closeSession_closing : closeSession.Closing :=
  (Session.closing_done.hear Session.not_done_listens (packet_ne_nil _)).say (Session.hear_listens _ _) (packet_ne_nil _)

/-- One E is enough. -/
theorem closeDisk_talk {S : Sig} {σ : Type} {X : Sem S σ} {t : σ} (fuel : Nat) :
    wp X.talk (Alloc.closeDisk (fuel + 1)) (fun _ u => u.2 = .done) (t, closeSession) := by
  unfold Alloc.closeDisk
  refine wp_bind.mpr (sendMsg_talk (by decide) (wp_bind.mpr (getMsgStr_talk (by decide) (by decide) ?_)))
  rw [if_neg (not_not.mpr rfl)]
  exact wp_ret.mpr rfl

theorem servLoop_exit (d : Disk) :
    wp noSem.talk (servLoop d) (fun o u => u.2 = .done ∧ o = none) ((), closeSession.dual) := by
  have htoks : toks (lit "E") 6 = [lit "E"] := by decide
  unfold servLoop
  refine wp_bind.mpr (getMsg_talk (by decide) (by decide) ?_)
  simp only [htoks, dispatch, if_pos]
  exact wp_bind.mpr (sendMsg_talk (by decide) (wp_ret.mpr ⟨rfl, rfl⟩))

theorem diskLink_atomic : diskLink.Atomic (fun _ _ => True) DiskEff where
  waits := servLoop_waits
  session := by
    rintro d t x - -
    cases x with
    | none =>
      refine ⟨closeSession, fun r => r = none, fun o _ => o = none, closeSession_closing, fun cst => ?_, servLoop_exit d,
        fun r o _ hr ho => ⟨hr, ho⟩⟩
      exact wp_seq (closeDisk_talk 0) fun _ u hu => wp_ret.mpr ⟨hu, rfl⟩
    | some x =>
      obtain ⟨A, Qc, Qs, hA, hcall, hserve, heff⟩ := blockLink_atomic.session d t x trivial trivial
      refine ⟨A, fun r => ∃ b, r = some b ∧ Qc b, Qs, hA, fun cst => ?_, hserve, ?_⟩
      · exact wp_seq (hcall cst) fun b u hu => wp_ret.mpr ⟨hu.1, b, rfl, hu.2⟩
      · rintro _ o t' ⟨b, rfl, hb⟩ ho
        exact ⟨b, rfl, heff b o t' hb ho⟩
  more := by
    rintro d t x r t' - - he
    cases x with
    | none => exact congrArg Option.isSome he.1
    | some x =>
      obtain ⟨b, -, d', heq, -⟩ := he
      cases heq
  inv _ _ _ _ _ _ _ _ _ := trivial

section
variable {d₀ d : Disk} {calls : List BlockCall} {g : Config noOps noOps Unit Unit DiskCall (Option Block) Disk}
variable {log : List (DiskCall × Option Block)} {o : Option Disk}

/-- The transfers of a connection that is open are those of the block store. -/
theorem calls_open {t : Unit} (h : Calls DiskEff d₀ () log (some d) t) :
    ∃ blocks : List (BlockCall × Block),
      log = blocks.map (fun x => (some x.1, some x.2)) ∧ Calls BlockEff d₀ () blocks (some d) t := by
  generalize ho : some d = o at h
  induction h generalizing d with
  | nil =>
    cases ho
    exact ⟨[], rfl, .nil⟩
  | @concat log d₁ _ x r o' _ _ he ih =>
    obtain ⟨blocks, rfl, hcalls⟩ := ih rfl
    subst ho
    cases x with
    | none => cases he.2
    | some x =>
      obtain ⟨b, rfl, hb⟩ := he
      exact ⟨blocks ++ [(x, b)], by simp, .concat hcalls hb⟩

/-- The last call of a connection that is closed is the closing. -/
theorem calls_closed {t : Unit} (h : Calls DiskEff d₀ () log none t) :
    ∃ log' d, log = log' ++ [(none, none)] ∧ Calls DiskEff d₀ () log' (some d) t := by
  cases h with
  | @concat log' d _ x r _ _ hcalls he =>
    cases x with
    | none =>
      obtain ⟨rfl, -⟩ := he
      exact ⟨log', d, rfl, hcalls⟩
    | some x =>
      obtain ⟨b, -, d', heq, -⟩ := he
      cases heq

/-- The connection is closed: both loops have ended with nothing in flight, each transfer and the closing were one request,
    and the disk holds the blocks that were written. -/
structure Closed (d₀ : Disk) (calls : List BlockCall) (g : Config noOps noOps Unit Unit DiskCall (Option Block) Disk) :
    Prop where
  cur : g.cur = none
  todo : g.todo = []
  up : g.up = []
  down : g.down = []
  srv : g.srv = .stopped
  served : g.served = calls.length + 1
  blocks : ∃ (log : List (BlockCall × Block)) (d : Disk), g.log = log.map (fun x => (some x.1, some x.2)) ++ [(none, none)] ∧
    log.map Prod.fst = calls ∧ ReadsLast d₀.block log ∧ d.Holds (lastWritten d₀.block log)

theorem eq_of_prefix {α : Type} {xs ys : List α} (h : xs.map some ++ [none] <+: ys.map some ++ [none]) : xs = ys := by
  induction xs generalizing ys with
  | nil =>
    cases ys with
    | nil => rfl
    | cons y ys => simp at h
  | cons x xs ih =>
    cases ys with
    | nil => simp at h
    | cons y ys =>
      obtain ⟨heq, h'⟩ := List.cons_prefix_cons.mp h
      cases heq
      rw [ih h']

/-- In every schedule of block transfers and then the closing, a step is possible until the connection is closed. -/
theorem diskLink_reached (hr : diskLink.Reaches (.initial (calls.map some ++ [none]) () d₀ ()) g) :
    Closed d₀ calls g ∨ ∃ g', diskLink.Step g g' := by
  have hgood := diskLink_atomic.good trivial hr
  rcases hgood.step servLoop_waits nofun nofun with hs | ⟨hcur, hstop⟩
  · exact Or.inr hs
  have htodo : g.todo = [] := by
    cases htodo : g.todo with
    | nil => rfl
    | cons x xs =>
      obtain ⟨k, -, hok⟩ := hstop x xs htodo
      exact absurd trivial hok
  cases hgood with
  | talk c p k t A U Qc Qs n hc =>
    rw [hcur] at hc
    cases hc
  | prompt o _ hup hdown hsrv hlog _ _ hserved =>
    left
    cases o with
    | some d =>
      -- All transfers have returned, so the closing has been called.
      obtain ⟨blocks, hblocks, -⟩ := calls_open hlog
      have hall := Link.reaches_all hr fun x hx => by
        rw [hblocks] at hx
        obtain ⟨y, -, rfl⟩ := List.mem_map.mp hx
        rfl
      rw [hcur, htodo, hblocks] at hall
      have hmem : (none : DiskCall) ∈ calls.map some ++ [none] := List.mem_append_right _ (List.mem_singleton_self _)
      rw [← hall] at hmem
      simp at hmem
    | none =>
      obtain ⟨log, d, hclose, hopen⟩ := calls_closed hlog
      obtain ⟨blocks, rfl, hcalls⟩ := calls_open hopen
      obtain ⟨d', heq, hholds, hreads⟩ := calls_blocks hcalls
      cases heq
      have hprefix := Link.reaches_prefix hr
      rw [hcur, htodo, hclose] at hprefix
      have heq : blocks.map Prod.fst = calls := eq_of_prefix (by simpa [Function.comp_def] using hprefix)
      refine ⟨hcur, htodo, hup, hdown, hsrv, ?_, blocks, d, hclose, heq, hreads, hholds⟩
      rw [hserved, hclose, ← heq]
      simp

/-- After any block transfers and the closing, both loops come to their ends in every schedule: none gets stuck or goes on
    forever, and when no step is left the connection is closed. -/
theorem connection_closes (d₀ : Disk) (calls : List BlockCall) :
    (∀ g, diskLink.Reaches (.initial (calls.map some ++ [none]) () d₀ ()) g → Closed d₀ calls g ∨ ∃ g', diskLink.Step g g') ∧
      ∀ run : Nat → Config noOps noOps Unit Unit DiskCall (Option Block) Disk,
        run 0 = .initial (calls.map some ++ [none]) () d₀ () → ¬ ∀ n, diskLink.Step (run n) (run (n + 1)) :=
  ⟨fun _ hr => diskLink_reached hr, diskLink_atomic.terminates trivial _ ()⟩

end

end MiniFs
