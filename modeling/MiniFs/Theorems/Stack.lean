import MiniFs.Theorems.Addresses
import MiniFs.Theorems.Restart

/-! # The layers of the file server

The commands work on zones (`storeSem`), alloc.c keeps these behind a cache of blocks, and the blocks are fetched from
and sent to the disk server. Run on the cache, over a connection that does what `diskSem` does, a command does no more
than on an array of zones. -/

namespace MiniFs
open Interact Memory

/-! ## Requests for blocks -/

/-- The block that is asked for is on the disk. -/
def InDisk : BlockOp → Prop
  | .readBlock c s _ => c < cylinders ∧ s < sectors
  | .writeBlock src => src.c < cylinders ∧ src.s < sectors

/-- A block that is read is the one that was asked for. -/
def BlockAns : (e : BlockOp) → e.Ans → Prop
  | .readBlock c s _, b => (show Block from b).c = c ∧ (show Block from b).s = s
  | .writeBlock _, _ => True

/-- The program asks for blocks on the disk only, and what it returns is as `Q` says. -/
abbrev BlocksInDisk {α : Type} (p : BlockM α) (Q : α → Prop) : Prop := p.Within InDisk BlockAns Q

theorem within_orFault {α β : Type} {o : Option β} {f : β → BlockM α} {Q : α → Prop}
    (h : ∀ b, o = some b → BlocksInDisk (f b) Q) : BlocksInDisk (orFault o >>= f) Q := by
  cases o with
  | none => trivial
  | some b => exact h b rfl

theorem getC_getS_lt {id : Nat} (h : id < 32768) : getC id < cylinders ∧ getS id < sectors := by
  unfold getC getS zoneSize blockSize sectors cylinders
  omega

namespace Alloc
variable {a : Alloc} {id : Nat}

theorem heap_shift (a : Alloc) (start n : Nat) : (a.shift start n).heap = a.heap := by
  induction n generalizing a with
  | zero => rfl
  | succ n ih => exact ih _

theorem within_probe (a : Alloc) (c s n idx : Nat) : BlocksInDisk (a.probe c s n idx) fun _ => True := by
  induction n generalizing idx with
  | zero => trivial
  | succ n ih =>
    unfold probe
    split
    · trivial
    · rename_i p _
      refine within_orFault fun b _ => ?_
      split
      · trivial
      · exact ih _

/-- `get_block` asks for the block of the zone, and the buffer that it returns is that of this block. -/
theorem within_getBlock (a : Alloc) (h : id < 32768) :
    BlocksInDisk (a.getBlock id) fun r => ∀ b, r.2.heap r.1 = some b → b.c = getC id ∧ b.s = getS id := by
  have hin := getC_getS_lt h
  unfold getBlock
  refine Prog.Within.seq (within_probe _ _ _ _ _) fun idx _ => ?_
  dsimp only
  split
  · refine ⟨hin, fun b hb b' hb' => ?_⟩
    cases (show some b = some b' from (if_pos rfl : _ = some b).symm.trans hb')
    exact hb
  · rename_i target _
    refine within_orFault fun b hh => ?_
    split
    · refine ⟨hin, fun b hb b' hb' => ?_⟩
      cases (show some b = some b' from (if_pos rfl : _ = some b).symm.trans hb')
      exact hb
    · rename_i hne
      simp only [not_or, not_not] at hne
      intro b' hb'
      have heap : (a.shift (getS id % cacheGrpNum * cacheGrpSz) (idx - getS id % cacheGrpNum * cacheGrpSz)).heap target =
          some b' := hb'
      rw [heap_shift, hh] at heap
      cases heap
      exact ⟨hne.1.symm, hne.2.symm⟩

theorem within_readZone (a : Alloc) {id : Int} (h : id < 32768) : BlocksInDisk (a.readZone id) fun _ => True := by
  unfold readZone
  split
  · trivial
  · exact Prog.Within.seq (within_getBlock a (by omega)) fun (_, _) _ => within_orFault fun _ _ => trivial

theorem within_writeZone (a : Alloc) {id : Int} (h : id < 32768) (z : Zone) :
    BlocksInDisk (a.writeZone id z) fun _ => True := by
  unfold writeZone
  split
  · trivial
  · refine Prog.Within.seq (within_getBlock a (by omega)) fun (p, a') hr =>
      within_orFault fun b hh => ⟨?_, fun _ _ => trivial⟩
    obtain ⟨hc, hs⟩ := hr b hh
    show b.c < cylinders ∧ b.s < sectors
    rw [hc, hs]
    exact getC_getS_lt (by omega)

theorem within_init (a : Alloc) : BlocksInDisk a.init fun _ => True :=
  Prog.Within.seq (within_getBlock a (by omega)) fun (_, _) _ => within_orFault fun _ _ => trivial

theorem within_final (a : Alloc) : BlocksInDisk a.final fun _ => True := by
  refine Prog.Within.seq (@within_getBlock 0 a (by omega)) fun (p, a') hr =>
    within_orFault fun b hh => ⟨?_, fun _ _ => trivial⟩
  obtain ⟨hc, hs⟩ := hr b hh
  show b.c < cylinders ∧ b.s < sectors
  rw [hc, hs]
  exact getC_getS_lt (by omega)

theorem within_format (a : Alloc) : BlocksInDisk a.format fun _ => True := by
  refine ⟨⟨by decide, by decide⟩, fun _ _ => ?_⟩
  exact @within_orFault _ _ (setState .zero 4 dOccupied) _ _ fun _ _ => show BlocksInDisk (.ret _) _ from trivial

end Alloc

/-! ## The commands on the cache -/

/-- The operations of the file server where zones are behind the cache, over a connection `Y` to the disk. -/
def stackOp {δ : Type} (P : Policy) (Y : Sem blockSig δ) :
    (e : FsOp) → Alloc × δ → Option (e.Ans × (Alloc × δ)) → Prop
  | .getState id, u, o => o = (getState u.1.map id).map fun b => (b, u)
  | .getFreeId b, u, o =>
    o = (getFreeId u.1.map b).map (fun p => (p.1, ({ u.1 with map := p.2 }, u.2))) ∧ (P.room = true → o ≠ none)
  | .setFreeId id, u, o => o = (setFreeId u.1.map id).map fun m => ((), ({ u.1 with map := m }, u.2))
  | .readZone id, u, o => ∃ o', Runs Y (u.1.readZone id) u.2 o' ∧ o = o'.map fun p => (p.1.1, (p.1.2, p.2))
  | .writeZone id z, u, o => ∃ o', Runs Y (u.1.writeZone id z) u.2 o' ∧ o = o'.map fun p => ((), p)
  | .time, u, o => ∃ t : UInt64, t.toNat < 2 ^ 63 ∧ o = some (t, u)
  | .stack pDir name, u, o => ∃ above, (P.slots = true → InSlots pDir name above) ∧ o = some (above, u)
  | .unset, u, o => ∃ v : Int, o = some (v, u)

/-- The layers without a client. -/
def stackSem {δ : Type} (P : Policy) (Y : Sem blockSig δ) : Sem fsSig (Alloc × δ) where
  op := stackOp P Y
  write _ _ o := o = none
  read _ _ o := o = none

/-- The zones and the states that the layers hold. -/
def Alloc.store (a : Alloc) (disk : BlockArray) : Store := ⟨a.map, fun id => disk.zone id.toNat⟩

/-- The layers hold the store `s`: the cache is coherent with an array of blocks that the disk holds. -/
def Backs {δ : Type} (R : BlockArray → δ → Prop) (s : Store) (u : Alloc × δ) : Prop :=
  ∃ disk, R disk u.2 ∧ u.1.Coherent disk ∧ s = u.1.store disk

section
variable {δ : Type} {P : Policy} {Y : Sem blockSig δ} {R : BlockArray → δ → Prop} {a : Alloc} {disk : BlockArray} {t : δ}

theorem Alloc.store_write {a' : Alloc} {disk' : BlockArray} {id : Int} {z : Zone} (hid : 4 ≤ id)
    (hz : disk'.zone = fun i => if i = id.toNat then z else disk.zone i) (hmap : a'.map = a.map) :
    (a.store disk).write id z = a'.store disk' := by
  have hzones : (fun i : Int => if i = id then z else disk.zone i.toNat) = fun i => disk'.zone i.toNat := by
    funext i
    rw [hz]
    by_cases hi : i = id
    · rw [if_pos hi]
      exact (if_pos (congrArg Int.toNat hi)).symm
    · rw [if_neg hi]
      exact (if_neg (by omega)).symm
  unfold Alloc.store Store.write
  rw [hmap, ← hzones]

/-- A call of alloc.c ends over the connection as over the array of blocks. -/
theorem runs_of_wp {α : Type} (hY : diskSem.Sim InDisk BlockAns Y R) {p : BlockM α} {Q : α → BlockArray → Prop}
    (hp : BlocksInDisk p fun _ => True) (hw : wp diskSem p Q disk) (hR : R disk t) {o : Option (α × δ)} (hr : Runs Y p t o) :
    ∃ r t' disk', o = some (r, t') ∧ Q r disk' ∧ R disk' t' := by
  obtain ⟨r, t', rfl, -, disk', hq, hR'⟩ := wp_iff_runs.mp (hY.wp hp hR hw) o hr
  exact ⟨r, t', disk', rfl, hq, hR'⟩

/-- The layers do no more than an array of zones with its bitmap. -/
theorem stack_sim (hY : diskSem.Sim InDisk BlockAns Y R) :
    (storeSem P).Sim ShortOp ShortAns (stackSem P Y) (Backs R) where
  op := by
    rintro e s ⟨a, t⟩ o he ⟨disk, hR, hcoh, rfl⟩ ho
    cases e with
    | getState id =>
      cases hs : getState a.map id with
      | none =>
        refine Or.inl ⟨?_, ?_⟩
        · rw [show o = _ from ho, hs]
          rfl
        · show none = (getState a.map id).map _
          rw [hs]
          rfl
      | some b =>
        refine Or.inr ⟨b, a.store disk, (a, t), ?_, trivial, ?_, disk, hR, hcoh, rfl⟩
        · rw [show o = _ from ho, hs]
          rfl
        · show some _ = (getState a.map id).map _
          rw [hs]
          rfl
    | getFreeId b =>
      obtain ⟨ho, hroom⟩ := ho
      cases hs : getFreeId a.map b with
      | none =>
        rw [hs] at ho
        refine Or.inl ⟨ho, ?_, fun h => absurd ho (hroom h)⟩
        show none = (getFreeId a.map b).map _
        rw [hs]
        rfl
      | some p =>
        refine Or.inr ⟨p.1, { a.store disk with map := p.2 }, ({ a with map := p.2 }, t), ?_, getFreeId_lt hs,
          ⟨?_, fun _ => Option.some_ne_none _⟩, disk, hR, hcoh.setMap _, rfl⟩
        · rw [ho, hs]
          rfl
        · show some _ = (getFreeId a.map b).map _
          rw [hs]
          rfl
    | setFreeId id =>
      cases hs : setFreeId a.map id with
      | none =>
        refine Or.inl ⟨?_, ?_⟩
        · rw [show o = _ from ho, hs]
          rfl
        · show none = (setFreeId a.map id).map _
          rw [hs]
          rfl
      | some m =>
        refine Or.inr ⟨(), { a.store disk with map := m }, ({ a with map := m }, t), ?_, trivial, ?_, disk, hR,
          hcoh.setMap _, rfl⟩
        · rw [show o = _ from ho, hs]
          rfl
        · show some _ = (setFreeId a.map id).map _
          rw [hs]
          rfl
    | readZone id =>
      obtain ⟨o', hr, rfl⟩ := ho
      refine Or.inr ?_
      by_cases h4 : id < 4
      · have hnone : a.readZone id = .ret (none, a) := if_pos h4
        rw [show Runs Y (a.readZone id) t o' = Runs Y (.ret (none, a)) t o' by rw [hnone]] at hr
        cases hr
        refine ⟨none, a.store disk, (a, t), rfl, trivial, ?_, disk, hR, hcoh, rfl⟩
        show some _ = some (if id < 4 then none else _, _)
        rw [if_pos h4]
        rfl
      · obtain ⟨r, t', disk', rfl, ⟨heq, hz, hmap, hcoh'⟩, hR'⟩ := runs_of_wp hY (a.within_readZone he)
          (Alloc.readZone_spec hcoh (by omega)) hR hr
        refine ⟨some (disk.zone id.toNat), a.store disk, (r.2, t'), ?_, trivial, ?_, disk, heq ▸ hR', hcoh', ?_⟩
        · rw [← hz]
          rfl
        · show some _ = some (if id < 4 then none else _, _)
          rw [if_neg h4]
          rfl
        · unfold Alloc.store
          rw [show r.2.map = a.map from hmap]
    | writeZone id z =>
      obtain ⟨o', hr, rfl⟩ := ho
      refine Or.inr ?_
      by_cases h4 : id < 4
      · have hnone : a.writeZone id z = .ret a := if_pos h4
        rw [show Runs Y (a.writeZone id z) t o' = Runs Y (.ret a) t o' by rw [hnone]] at hr
        cases hr
        refine ⟨(), a.store disk, (a, t), rfl, trivial, ?_, disk, hR, hcoh, rfl⟩
        show some _ = some ((), if id < 4 then _ else _)
        rw [if_pos h4]
        rfl
      · obtain ⟨r, t', disk', rfl, ⟨hz, hmap, hcoh'⟩, hR'⟩ := runs_of_wp hY (a.within_writeZone he z)
          (Alloc.writeZone_spec hcoh (by omega) z) hR hr
        refine ⟨(), (a.store disk).write id z, (r, t'), rfl, trivial, ?_, disk', hR', hcoh',
          Alloc.store_write (by omega) hz hmap⟩
        show some _ = some ((), if id < 4 then _ else _)
        rw [if_neg h4]
        rfl
    | time =>
      obtain ⟨now, hnow, rfl⟩ := ho
      exact Or.inr ⟨now, a.store disk, (a, t), rfl, trivial, ⟨now, hnow, rfl⟩, disk, hR, hcoh, rfl⟩
    | stack pDir name =>
      obtain ⟨above, ha, rfl⟩ := ho
      exact Or.inr ⟨above, a.store disk, (a, t), rfl, trivial, ⟨above, ha, rfl⟩, disk, hR, hcoh, rfl⟩
    | unset =>
      obtain ⟨v, rfl⟩ := ho
      exact Or.inr ⟨v, a.store disk, (a, t), rfl, trivial, ⟨v, rfl⟩, disk, hR, hcoh, rfl⟩
  write := fun _ _ _ _ _ ho => Or.inl ⟨ho, rfl⟩
  read := fun _ _ _ _ _ ho => Or.inl ⟨ho, rfl⟩

/-- An array of zones with its bitmap does no more than the layers. -/
theorem stack_cosim (hY : diskSem.Sim InDisk BlockAns Y R) (hruns : Y.Alone) :
    (stackSem P Y).Sim ShortOp ShortAns (storeSem P) fun (u : Alloc × δ) s => Backs R s u where
  op := by
    rintro e ⟨a, t⟩ s o he hB ho
    -- Where the store leaves no choice, what the layers do is what the store does.
    have hsame (hdet : ∀ o', storeOp P e s o' → o' = o) (hruns : ∃ o', stackOp P Y e (a, t) o') :
        (o = none ∧ stackOp P Y e (a, t) none) ∨ ∃ r u' s', o = some (r, s') ∧ ShortAns e r ∧
          stackOp P Y e (a, t) (some (r, u')) ∧ Backs R s' u' := by
      obtain ⟨o', ho'⟩ := hruns
      rcases (stack_sim (P := P) hY).op e s (a, t) o' he hB ho' with ⟨rfl, hs⟩ | ⟨r, s', u', rfl, hr, hs, hB'⟩
      · exact Or.inl ⟨(hdet _ hs).symm, ho'⟩
      · exact Or.inr ⟨r, u', s', (hdet _ hs).symm, hr, ho', hB'⟩
    have hmap : s.map = a.map := by
      obtain ⟨disk, -, -, rfl⟩ := hB
      rfl
    cases e with
    | getState id => exact hsame (fun o' ho' => ho'.trans ho.symm) ⟨_, rfl⟩
    | getFreeId b =>
      obtain ⟨ho, hroom⟩ := ho
      refine hsame (fun o' ho' => ho'.1.trans ho.symm) ⟨_, rfl, fun h hnone => hroom h ?_⟩
      rw [ho, hmap, Option.map_eq_none_iff.mp hnone]
      rfl
    | setFreeId id => exact hsame (fun o' ho' => ho'.trans ho.symm) ⟨_, rfl⟩
    | readZone id =>
      obtain ⟨o', hr⟩ := hruns.exists_runs (a.readZone id) t
      exact hsame (fun o' ho' => ho'.trans ho.symm) ⟨_, o', hr, rfl⟩
    | writeZone id z =>
      obtain ⟨o', hr⟩ := hruns.exists_runs (a.writeZone id z) t
      exact hsame (fun o' ho' => ho'.trans ho.symm) ⟨_, o', hr, rfl⟩
    | time =>
      obtain ⟨now, hnow, rfl⟩ := ho
      exact Or.inr ⟨now, (a, t), s, rfl, trivial, ⟨now, hnow, rfl⟩, hB⟩
    | stack pDir name =>
      obtain ⟨above, ha, rfl⟩ := ho
      exact Or.inr ⟨above, (a, t), s, rfl, trivial, ⟨above, ha, rfl⟩, hB⟩
    | unset =>
      obtain ⟨v, rfl⟩ := ho
      exact Or.inr ⟨v, (a, t), s, rfl, trivial, ⟨v, rfl⟩, hB⟩
  write := fun _ _ _ _ _ ho => Or.inl ⟨ho, rfl⟩
  read := fun _ _ _ _ _ ho => Or.inl ⟨ho, rfl⟩

end

end MiniFs
