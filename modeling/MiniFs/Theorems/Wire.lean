import MiniFs.DiskTest
import MiniFs.Theorems.CommandLoop
import MiniFs.Theorems.Stack

/-! # The file server over its connection

Below the cache are the two transfers of utils.c and the loop of the disk server, which run in any order that their
queues admit. What the commands do over this connection is what they do on an array of zones. -/

namespace MiniFs
open Interact Memory

/-! ## Blocks over the connection -/

/-- The call of utils.c, for a block on the disk. -/
def wireCall : BlockOp → Option BlockCall
  | .readBlock c s dest => if h : c < cylinders ∧ s < sectors then some (.read ⟨c, h.1⟩ ⟨s, h.2⟩ dest) else none
  | .writeBlock src =>
    if h : src.c < cylinders ∧ src.s < sectors then some (.write ⟨src.c, h.1⟩ ⟨src.s, h.2⟩ src.zones) else none

/-- What the call leaves with its caller. -/
def wireAns : (e : BlockOp) → Block → e.Ans
  | .readBlock .., b => b
  | .writeBlock _, _ => ()

/-- The outcome of a schedule of one call: the call has returned and the disk server waits for a request. -/
def wireEnd (e : BlockOp) (g : Config noOps noOps Unit Unit BlockCall Block Disk) : Option (e.Ans × Disk) :=
  match g.log, g.srv with
  | [(_, r)], .idle d => some (wireAns e r, d)
  | _, _ => none

/-- The operations over the connection: each call runs with the loop of the disk server until no step is possible. For a
    block outside of the disk there is no such call. -/
def wireSem : Sem blockSig Disk where
  op e d o := match wireCall e with
    | none => o = none
    | some x => ∃ g, blockLink.Reaches (.initial [x] () d ()) g ∧ (∀ g', ¬blockLink.Step g g') ∧ o = wireEnd e g
  write _ _ o := o = none
  read _ _ o := o = none

section
variable {d : Disk} {disk : BlockArray}

/-- A schedule of one call ends with its effect. -/
theorem wire_ends {x : BlockCall} {g : Config noOps noOps Unit Unit BlockCall Block Disk}
    (hr : blockLink.Reaches (.initial [x] () d ()) g) (hend : ∀ g', ¬blockLink.Step g g') (hd : d.Holds disk) :
    ∃ r d', g.log = [(x, r)] ∧ g.srv = .idle d' ∧ (∀ c s dest, x = .read c s dest → r = ⟨disk c s, c, s⟩) ∧
      d'.Holds (x.effect disk).2 := by
  obtain ⟨hprompt, hdone⟩ := blockLink_reached hr
  obtain ⟨hcur, htodo⟩ := hdone.resolve_right fun ⟨g', hs⟩ => hend g' hs
  obtain ⟨hcalls, hreads, -, -, d', hsrv, hholds⟩ := hprompt hcur
  rw [htodo, List.append_nil] at hcalls
  obtain ⟨⟨x', r⟩, hlog, hx⟩ := List.map_eq_singleton_iff.mp hcalls
  obtain rfl : x' = x := hx
  refine ⟨r, d', hlog, hsrv, ?_, fun c s hs => ?_⟩
  · rintro c s dest rfl
    rw [hreads [] c s dest r [] hlog]
    show (⟨d.block c s, c, s⟩ : Block) = _
    rw [hd c s s.isLt]
  · rw [hholds c s hs, hlog]
    cases x' with
    | read c' s' dest => exact hd c s hs
    | write c' s' zones =>
      show (if c = c' ∧ s = s' then zones else d.block c s) = disk.put c' s' zones c s
      unfold BlockArray.put
      rw [hd c s hs]

/-- Over the connection the operations do no more than on an array of blocks. -/
theorem wire_sim : diskSem.Sim InDisk BlockAns wireSem fun disk d => d.Holds disk where
  op := by
    rintro e disk d o he hd ho
    refine Or.inr ?_
    cases e with
    | readBlock c s dest =>
      have hcall : wireCall (.readBlock c s dest) = some (.read ⟨c, he.1⟩ ⟨s, he.2⟩ dest) := dif_pos he
      dsimp only [wireSem] at ho
      rw [hcall] at ho
      obtain ⟨g, hr, hend, rfl⟩ := ho
      obtain ⟨r, d', hlog, hsrv, hread, hd'⟩ := wire_ends hr hend hd
      refine ⟨⟨disk c s, c, s⟩, disk, d', ?_, ⟨rfl, rfl⟩, (diskSem_read ⟨c, he.1⟩ ⟨s, he.2⟩ dest disk _).mpr rfl, hd'⟩
      unfold wireEnd
      rw [hlog, hsrv, hread _ _ _ rfl]
      rfl
    | writeBlock src =>
      have hcall : wireCall (.writeBlock src) = some (.write ⟨src.c, he.1⟩ ⟨src.s, he.2⟩ src.zones) := dif_pos he
      dsimp only [wireSem] at ho
      rw [hcall] at ho
      obtain ⟨g, hr, hend, rfl⟩ := ho
      obtain ⟨r, d', hlog, hsrv, -, hd'⟩ := wire_ends hr hend hd
      refine ⟨(), disk.put src.c src.s src.zones, d', ?_, trivial,
        (diskSem_write ⟨src.c, he.1⟩ ⟨src.s, he.2⟩ src.zones disk _).mpr rfl, hd'⟩
      unfold wireEnd
      rw [hlog, hsrv]
      rfl
  write := fun _ _ _ _ _ ho => Or.inl ⟨ho, rfl⟩
  read := fun _ _ _ _ _ ho => Or.inl ⟨ho, rfl⟩

/-- Some schedule of every operation comes to an end. -/
theorem wire_total (e : BlockOp) (d : Disk) : ∃ o, wireSem.op e d o := by
  cases hcall : wireCall e with
  | none => exact ⟨none, by dsimp only [wireSem]; rw [hcall]⟩
  | some x =>
    obtain ⟨g, hr, hend⟩ : ∃ g, blockLink.Reaches (.initial [x] () d ()) g ∧ ∀ g', ¬blockLink.Step g g' :=
      blockLink_atomic.exists_end trivial [x] ()
    exact ⟨wireEnd e g, by dsimp only [wireSem]; rw [hcall]; exact ⟨g, hr, hend, rfl⟩⟩

/-! ## disk_test.c -/

theorem testBlock_in_disk (rand : Nat → Nat) (test : Nat) :
    (testBlock rand test).c < cylinders ∧ (testBlock rand test).s < sectors :=
  ⟨Nat.mod_lt _ (by decide), Nat.mod_lt _ (by decide)⟩

theorem within_testLoop (rand : Nat → Nat) (n test : Nat) (b : Block) :
    BlocksInDisk (testLoop rand n test b) fun _ => True := by
  induction n generalizing test b with
  | zero => trivial
  | succ n ih =>
    have hin := testBlock_in_disk rand test
    refine Prog.Within.seq (p := writeBlockOp _) (R := fun _ => True) ⟨hin, fun _ _ => trivial⟩ fun _ _ => ?_
    refine Prog.Within.seq (p := readBlockOp _ _ b) (R := fun _ => True) ⟨hin, fun _ _ => trivial⟩ fun b' _ => ?_
    exact (ih _ b').seq fun _ _ => trivial

theorem failedBytes_self (a b : Block) (h : a.zones = b.zones) : failedBytes a b = [] := by
  unfold failedBytes
  rw [h]
  simp

/-- Each round reads the block that it has written. -/
theorem testLoop_spec (rand : Nat → Nat) (n test : Nat) (b : Block) :
    wp diskSem (testLoop rand n test b) (fun k _ => k = 0) disk := by
  induction n generalizing test b disk with
  | zero => exact wp_ret.mpr rfl
  | succ n ih =>
    unfold testLoop
    refine wp_bind.mpr (writeBlockOp_spec (wp_bind.mpr (readBlockOp_spec (wp_seq (ih _ _) ?_))))
    rintro k _ rfl
    refine wp_ret.mpr ?_
    rw [failedBytes_self _ _ (by simp [BlockArray.put])]
    rfl

/-- Whatever is on the disk and whatever `rand` returns, the test reports no failure in any schedule with the disk server. -/
theorem disk_test_passes (rand : Nat → Nat) (d : Disk) : wp wireSem (diskTestMain rand) (fun k _ => k = 0) d := by
  have hholds : d.Holds d.block := fun _ _ _ => rfl
  refine wp_mono (wire_sim.wp (within_testLoop rand 100 0 _) hholds (testLoop_spec rand 100 0 _)) ?_
  rintro k d' ⟨-, _, hk, -⟩
  exact hk

end

end MiniFs
