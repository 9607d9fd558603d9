import MiniFs.Theorems.Bitmap
import MiniFs.Theorems.Cache

/-! # Restarting

`alloc_final` puts the bitmap into the first four zones of block 0, over the newest bytes of that block, and tells the disk
server to end. A process that starts afterwards, with a disk server of its own, has the states and the zones that the old one
had, but for the last byte of the last zone: the disk server clears it when it starts. -/

namespace MiniFs
open Interact Memory

/-! ## The start of the disk server -/

/-- The blocks of the disk file once `disk_init` has written its last byte. -/
def BlockArray.init (disk : BlockArray) : BlockArray := disk.put 127 31 ((disk 127 31).blit 511 [0])

theorem BlockArray.init_byte (disk : BlockArray) (c s : Nat) (j : Fin 512) :
    disk.init c s j = if c = 127 ∧ s = 31 ∧ j.val = 511 then 0 else disk c s j := by
  have hj := j.isLt
  unfold init put
  by_cases h : c = 127 ∧ s = 31
  · rw [if_pos h, h.1, h.2]
    unfold Bytes.blit
    rw [List.length_singleton]
    by_cases hlast : j.val = 511
    · rw [if_pos (by omega), if_pos ⟨rfl, rfl, hlast⟩, hlast]
      rfl
    · rw [if_neg (by omega), if_neg (by omega)]
  · rw [if_neg h, if_neg fun hlast => h ⟨hlast.1, hlast.2.1⟩]

/-- The new disk server holds the blocks of the disk file but for that byte. -/
theorem Disk.init_block (d : Disk) {c s : Nat} (hs : s < sectors) : d.init.block c s = d.block.init c s := by
  funext j
  have hj := j.isLt
  rw [BlockArray.init_byte]
  unfold Disk.init Disk.block
  rw [Disk.writeBytes_file, List.length_singleton]
  unfold blockOff blockSize sectors cylinders at *
  by_cases h : c = 127 ∧ s = 31 ∧ j.val = 511
  · rw [if_pos (by omega), if_pos h, h.1, h.2.1, h.2.2]
    rfl
  · rw [if_neg (by omega), if_neg h]

theorem BlockArray.zone_byte (disk : BlockArray) (id : Nat) (j : Fin 64) :
    disk.zone id j = disk (getC id) (getS id) ⟨id % 8 * zoneSize + j, by have := j.isLt; unfold zoneSize; omega⟩ :=
  Bytes.get_val _ ⟨_, by have := j.isLt; unfold zoneSize; omega⟩

/-- The byte that `disk_init` writes is the last one of zone 32767. -/
theorem BlockArray.zone_init (disk : BlockArray) (id : Nat) (j : Fin 64) :
    disk.init.zone id j = if id = 32767 ∧ j.val = 63 then 0 else disk.zone id j := by
  have hj := j.isLt
  rw [zone_byte, zone_byte, init_byte]
  refine if_congr ?_ rfl rfl
  unfold getC getS zoneSize blockSize sectors
  dsimp only
  omega

/-! ## Calls -/

/-- A call of alloc.c while the file server runs. -/
inductive AllocCall where
  | getFreeId (state : Byte)
  | setFreeId (id : { id : Int // id < 1024 })
  | readZone (id : ZoneId)
  | writeZone (id : ZoneId) (z : Zone)

namespace AllocCall

def run (a : Alloc) : AllocCall → BlockM Alloc
  | getFreeId state => do
    let (_, map) ← orFault (MiniFs.getFreeId a.map state)
    .ret { a with map := map }
  | setFreeId id => do
    let map ← orFault (MiniFs.setFreeId a.map id)
    .ret { a with map := map }
  | readZone id => do
    let (_, a) ← a.readZone id
    .ret a
  | writeZone id z => a.writeZone id z

/-- The call may be made: there is a free zone for `get_free_id`. -/
def Allowed (map : Bitmap) : AllocCall → Prop
  | getFreeId _ => ∃ id : Int, 4 ≤ id ∧ id < 1024 ∧ getState map id = some unoccupied
  | _ => True

/-- The bitmap after the call. -/
def after (map : Bitmap) : AllocCall → Option Bitmap
  | getFreeId state => (MiniFs.getFreeId map state).map Prod.snd
  | setFreeId id => MiniFs.setFreeId map id
  | _ => some map

end AllocCall

def runAllocCalls (a : Alloc) : List AllocCall → BlockM Alloc
  | [] => .ret a
  | x :: xs => do runAllocCalls (← x.run a) xs

/-- The last byte of zone 32767 after calls that find `b` there. -/
def lastByte (b : Byte) : List AllocCall → Byte
  | [] => b
  | .writeZone id z :: xs => lastByte (if id.val = 32767 then z 63 else b) xs
  | _ :: xs => lastByte b xs

/-- Every call may be made when its turn comes. -/
def AllAllowed (map : Bitmap) : List AllocCall → Prop
  | [] => True
  | x :: xs => x.Allowed map ∧ ∀ map', x.after map = some map' → AllAllowed map' xs

section
variable {a : Alloc} {disk : BlockArray}

theorem getFreeId_isSome {map : Bitmap} {id : Int} (state : Byte) (h4 : 4 ≤ id) (hlt : id < 1024)
    (h : getState map id = some unoccupied) : ∃ p, getFreeId map state = some p := by
  rcases @getFreeIdFrom_spec 256 map state 32764 4 (by omega) (by omega) (by omega) with ⟨i, hi, hlt', -, -, heq⟩ | ⟨-, hall⟩
  · have hset : ∃ m, setState map (i : Int) state = some m := by
      unfold setState
      rw [if_neg (by omega), if_pos (by omega)]
      exact ⟨_, rfl⟩
    obtain ⟨m, hm⟩ := hset
    exact ⟨((i : Int), m), by rw [getFreeId, heq, hm]; rfl⟩
  · have hcast : ((id.toNat : Nat) : Int) = id := by omega
    exact absurd (by rwa [hcast]) (hall id.toNat (by omega))

theorem setFreeId_isSome {map : Bitmap} {id : Int} (h : id < 1024) : ∃ m, setFreeId map id = some m := by
  unfold setFreeId setState
  by_cases h4 : id ≥ 4
  · rw [if_pos h4, if_neg (by omega), if_pos (by omega)]
    exact ⟨_, rfl⟩
  · rw [if_neg h4]
    exact ⟨_, rfl⟩

theorem AllocCall.run_spec (h : a.Coherent disk) (x : AllocCall) (hx : x.Allowed a.map) :
    wp diskSem (x.run a) (fun a' disk' => a'.Coherent disk' ∧ x.after a.map = some a'.map ∧
      ∀ xs, lastByte (disk'.zone 32767 63) xs = lastByte (disk.zone 32767 63) (x :: xs)) disk := by
  cases x with
  | getFreeId state =>
    obtain ⟨id, h4, hlt, hfree⟩ := hx
    obtain ⟨p, hp⟩ := getFreeId_isSome state h4 hlt hfree
    dsimp only [run, after]
    rw [hp]
    exact wp_bind.mpr (wp_ret.mpr (wp_ret.mpr ⟨h.setMap _, rfl, fun _ => rfl⟩))
  | setFreeId id =>
    obtain ⟨m, hm⟩ := @setFreeId_isSome a.map id.val id.property
    dsimp only [run, after]
    rw [hm]
    exact wp_bind.mpr (wp_ret.mpr (wp_ret.mpr ⟨h.setMap _, rfl, fun _ => rfl⟩))
  | readZone id =>
    refine wp_seq (Alloc.readZone_spec h id.property.1) ?_
    rintro ⟨z, a'⟩ _ ⟨rfl, -, hmap, hcoh⟩
    exact wp_ret.mpr ⟨hcoh, congrArg some hmap.symm, fun _ => rfl⟩
  | writeZone id z =>
    refine wp_mono (Alloc.writeZone_spec h id.property.1 z) ?_
    rintro a' disk' ⟨hzones, hmap, hcoh⟩
    refine ⟨hcoh, congrArg some hmap.symm, fun xs => congrArg (lastByte · xs) ?_⟩
    have hid := id.property.1
    rw [hzones]
    dsimp only
    by_cases h : id.val = 32767
    · rw [if_pos (by omega), if_pos h]
    · rw [if_neg (by omega), if_neg h]

theorem runAllocCalls_spec (h : a.Coherent disk) (calls : List AllocCall) (hall : AllAllowed a.map calls) :
    wp diskSem (runAllocCalls a calls) (fun a' disk' => a'.Coherent disk' ∧
      disk'.zone 32767 63 = lastByte (disk.zone 32767 63) calls) disk := by
  induction calls generalizing a disk with
  | nil => exact wp_ret.mpr ⟨h, rfl⟩
  | cons x xs ih =>
    refine wp_seq (x.run_spec h hall.1) ?_
    rintro a' disk' ⟨hcoh, hmap, hbyte⟩
    rw [← hbyte]
    exact ih hcoh (hall.2 _ hmap)

/-- `alloc_final` writes the bitmap to the disk, and leaves the zones from 4 on as they are. -/
theorem final_spec (h : a.Coherent disk) :
    wp diskSem a.final (fun _ disk' => (disk' 0 0).sub 0 256 = a.map ∧ ∀ id : Nat, 4 ≤ id →
      disk'.zone id = disk.zone id) disk := by
  unfold Alloc.final
  refine wp_seq (Alloc.getBlock_spec h 0) ?_
  rintro ⟨p, a'⟩ _ ⟨rfl, b, hgot⟩
  have hheap : a'.heap p = some b := hgot.slot.2
  have hmap : a'.map = a.map := hgot.map
  simp only [hheap, hmap]
  have hc : b.c = 0 := hgot.addr.1
  have hs : b.s = 0 := hgot.addr.2
  have hzones : b.zones = _ := hgot.zones
  have hlen : (a.map.slice 0 256).length = 256 := a.map.length_slice 0 256
  refine wp_bind.mpr (wp_ret.mpr (wp_bind.mpr (writeBlockOp_spec (wp_ret.mpr ⟨?_, fun id hid => ?_⟩))))
  · rw [hc, hs]
    exact (congrArg (fun b : Bytes 512 => b.sub 0 256) (if_pos ⟨rfl, rfl⟩)).trans (sub_blit_self (by omega) a.map)
  · rw [hc, hs]
    unfold BlockArray.zone BlockArray.put
    by_cases hblk : getC id = 0 ∧ getS id = 0
    · -- In block 0 the zones from 4 on are after the bitmap.
      have hoff : id % 8 = id := by
        have := @zone_addr_inj id (id % 8)
        unfold getC getS zoneSize blockSize sectors at hblk
        omega
      rw [if_pos hblk, sub_blit_of_disjoint, hzones, hblk.1, hblk.2]
      · rfl
      · right
        rw [hlen, hoff]
        unfold zoneSize
        omega
    · rw [if_neg hblk]

theorem diskSem_alone : diskSem.Alone where
  total := fun e _ => by cases e <;> exact ⟨_, rfl⟩
  write := fun _ _ => rfl
  read := fun _ _ => rfl

/-- The process ends and the disk server with it; the next process, with a disk server that is started for it, has the same
    states and the same zones. -/
def Survives (a : Alloc) (disk : BlockArray) : Prop :=
  wp diskSem a.final (fun _ disk' => wp diskSem Alloc.start.init (fun a' disk'' =>
    (∀ id : Int, 4 ≤ id → id < 1024 → getState a'.map id = getState a.map id) ∧
      ∀ id : ZoneId, ∃ z : Zone, wp diskSem (a.readZone id) (fun r _ => r.1 = some z) disk ∧
        wp diskSem (a'.readZone id) (fun r _ => r.1 = some z) disk'') disk'.init) disk

theorem survives_iff (h : a.Coherent disk) : Survives a disk ↔ disk.zone 32767 63 = 0 := by
  have hlast : (4 : Int) ≤ 32767 := by decide
  constructor
  · intro hsurvives
    obtain ⟨-, disk', ⟨-, hzones⟩, hnext⟩ := diskSem_alone.exists_of_wp (wp_and (final_spec h) hsurvives)
    obtain ⟨a', -, ⟨rfl, hcoh, -⟩, -, hsame⟩ := diskSem_alone.exists_of_wp (wp_and init_spec hnext)
    obtain ⟨z, hold, hnew⟩ := hsame ⟨32767, hlast, by decide⟩
    obtain ⟨r, -, ⟨-, hr, -⟩, hz⟩ := diskSem_alone.exists_of_wp (wp_and (Alloc.readZone_spec h hlast) hold)
    obtain ⟨r', -, ⟨-, hr', -⟩, hz'⟩ := diskSem_alone.exists_of_wp (wp_and (Alloc.readZone_spec hcoh hlast) hnew)
    have hzone : disk.zone 32767 = disk'.init.zone 32767 :=
      Option.some.inj (hr.symm.trans (hz.trans (hz'.symm.trans hr')))
    rw [hzone, BlockArray.zone_init, if_pos ⟨rfl, rfl⟩]
  · intro hbyte
    refine wp_mono (final_spec h) ?_
    rintro - disk' ⟨hmap, hzones⟩
    have hinit : ∀ id : Nat, 4 ≤ id → disk'.init.zone id = disk.zone id := fun id hid => by
      funext j
      rw [BlockArray.zone_init, hzones id hid]
      split
      · next hj =>
        obtain rfl : j = 63 := Fin.ext hj.2
        rw [hj.1, hbyte]
      · rfl
    refine wp_mono init_spec ?_
    rintro a' _ ⟨rfl, hcoh, hmap'⟩
    refine ⟨fun id _ _ => by rw [hmap', ← hmap]; rfl, fun id => ⟨disk.zone id.val.toNat, ?_, ?_⟩⟩
    · exact wp_mono (Alloc.readZone_spec h id.property.1) fun _ _ h => h.2.1
    · have h4 := id.property.1
      refine wp_mono (Alloc.readZone_spec hcoh h4) fun _ _ h => h.2.1.trans ?_
      rw [hinit id.val.toNat (by omega)]

/-- A process that starts on the disk and makes the calls survives its end. -/
def Persists (disk : BlockArray) (calls : List AllocCall) : Prop :=
  wp diskSem (do runAllocCalls (← Alloc.start.init) calls) Survives disk

theorem start_calls {calls : List AllocCall} (hall : AllAllowed ((disk 0 0).sub 0 256) calls) :
    wp diskSem (do runAllocCalls (← Alloc.start.init) calls) (fun a disk' => a.Coherent disk' ∧
      disk'.zone 32767 63 = lastByte (disk 127 31 511) calls) disk := by
  refine wp_seq init_spec ?_
  rintro a _ ⟨rfl, hcoh, hmap⟩
  exact runAllocCalls_spec hcoh calls (hmap ▸ hall)

end

/-- After any calls, a process that starts where this one has ended finds its states and its zones, exactly if the calls
    leave a zero at the end of zone 32767. -/
theorem restart_persists_iff (disk : BlockArray) (calls : List AllocCall) (hall : AllAllowed ((disk 0 0).sub 0 256) calls) :
    Persists disk calls ↔ lastByte (disk 127 31 511) calls = 0 := by
  constructor
  · intro h
    obtain ⟨a, disk', ⟨hcoh, hbyte⟩, hsurvives⟩ := diskSem_alone.exists_of_wp (wp_and (start_calls hall) h)
    exact hbyte.symm.trans ((survives_iff hcoh).mp hsurvives)
  · intro hzero
    refine wp_mono (start_calls hall) ?_
    rintro a disk' ⟨hcoh, hbyte⟩
    exact (survives_iff hcoh).mpr (hbyte.trans hzero)

/-- On a zero disk: a zone is taken, written and freed again, and the last zone is written but for its last byte. -/
theorem restart_persists_iff_zero : Persists (fun _ _ => .zero)
    [.getFreeId iOccupied, .writeZone ⟨4, by decide⟩ (fun _ => 7), .setFreeId ⟨4, by decide⟩,
      .writeZone ⟨32767, by decide⟩ (fun j => if j.val < 63 then 7 else 0)] :=
  (restart_persists_iff (fun _ _ => .zero)
    [.getFreeId iOccupied, .writeZone ⟨4, by decide⟩ (fun _ => 7), .setFreeId ⟨4, by decide⟩,
      .writeZone ⟨32767, by decide⟩ (fun j => if j.val < 63 then 7 else 0)]
    ⟨⟨4, by decide, by decide, by decide +kernel⟩, fun _ _ => ⟨trivial, fun _ _ => ⟨trivial, fun _ _ => ⟨trivial, fun _ _ =>
      trivial⟩⟩⟩⟩).mpr rfl

/-- The last byte of zone 32767 is lost. -/
theorem last_byte_lost : ¬∀ (disk : BlockArray) (calls : List AllocCall), AllAllowed ((disk 0 0).sub 0 256) calls →
    Persists disk calls := by
  intro hall
  have hallowed : AllAllowed (((fun _ _ => Bytes.zero : BlockArray) 0 0).sub 0 256)
      [.writeZone ⟨32767, by decide⟩ fun _ => 1] := ⟨trivial, fun _ _ => trivial⟩
  obtain ⟨a, disk', ⟨hcoh, hbyte⟩, hsurvives⟩ :=
    diskSem_alone.exists_of_wp (wp_and (start_calls hallowed) (hall (fun _ _ => .zero) _ hallowed))
  have hzero : (1 : Byte) = 0 := hbyte.symm.trans ((survives_iff hcoh).mp hsurvives)
  exact absurd hzero (by decide)

end MiniFs
