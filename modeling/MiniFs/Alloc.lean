import MiniFs.Utils

/-! # alloc.c

The bitmap of zone states and the 2-way block cache of the file server. The cache holds pointers; the
blocks they point to are in a heap, so that a slot that is reused in place and a slot that is freed can
be told apart. The disk server is behind the two operations `readBlock` and `writeBlock`. -/

namespace MiniFs
open Interact Memory

/-! ## The bitmap -/

def unoccupied : Byte := 0
def dOccupied : Byte := 1
def fOccupied : Byte := 2
def iOccupied : Byte := 3

/-- `bitmap_t`: two bits for each zone. The source's has 256 bytes. -/
abbrev Bitmap (n : Nat := 256) := Bytes n

/-- `(id & 3) << 1` -/
def bitOff (id : Int) : Byte := UInt8.ofNat (2 * (id.toNat % 4))

section
variable {n : Nat}

/-- `get_state`; an id past the last cell reads past the end of the bitmap. -/
def getState (map : Bitmap n) (id : Int) : Option Byte :=
  if id < 4 then some fOccupied
  else if id.toNat / 4 < n then some (map.get (id.toNat / 4) >>> bitOff id &&& 3)
  else none

/-- `set_state`; an id past the last cell writes past the end of the bitmap. -/
def setState (map : Bitmap n) (id : Int) (state : Byte) : Option (Bitmap n) :=
  if id < 4 then some map
  else if id.toNat / 4 < n then
    some (map.blit (id.toNat / 4)
      [map.get (id.toNat / 4) &&& ~~~(3 <<< bitOff id) ||| (state &&& 3) <<< bitOff id])
  else none

/-- The loop of `get_free_id` from `id` on. -/
def getFreeIdFrom (map : Bitmap n) (state : Byte) : (fuel : Nat) → (id : Nat) → Option (Int × Bitmap n)
  | 0, _ => some (-1, map)
  | fuel + 1, id => do
    if (← getState map id) = unoccupied then
      let map' ← setState map id state
      some ((id : Int), map')
    else getFreeIdFrom map state fuel (id + 1)

/-- `get_free_id`: the loop runs over the ids 4 to 2^15 - 1. -/
def getFreeId (map : Bitmap n) (state : Byte) : Option (Int × Bitmap n) := getFreeIdFrom map state 32764 4

def setFreeId (map : Bitmap n) (id : Int) : Option (Bitmap n) :=
  if id ≥ 4 then setState map id unoccupied else some map

end

/-! ## The cache -/

/-- The two operations of utils.c on the connection to the disk server. -/
inductive BlockOp where
  | readBlock (c s : Nat) (dest : Block)
  | writeBlock (src : Block)

/-- `read_block` answers with what its destination holds afterwards. -/
def BlockOp.Ans : BlockOp → Type
  | readBlock .. => Block
  | writeBlock _ => Unit

abbrev blockSig : Sig := ⟨BlockOp, BlockOp.Ans⟩

abbrev BlockM := Prog blockSig

def readBlockOp (c s : Nat) (dest : Block) : BlockM Block := .op (.readBlock c s dest) .ret
def writeBlockOp (src : Block) : BlockM Unit := .op (.writeBlock src) .ret

def cacheSize : Nat := 8
def cacheGrpSz : Nat := 2
def cacheGrpNum : Nat := cacheSize / cacheGrpSz

/-- The static variables of alloc.c, and the heap that holds the blocks of `b_cache`. -/
structure Alloc where
  map : Bitmap
  bCache : Nat → Option Nat
  heap : Nat → Option Block
  /-- the next pointer that `calloc` returns -/
  brk : Nat

/-- `get_c` -/
def getC (id : Nat) : Nat := id * zoneSize / blockSize / sectors

/-- `get_s` -/
def getS (id : Nat) : Nat := id * zoneSize / blockSize % sectors

namespace Alloc

def setSlot (a : Alloc) (i : Nat) (p : Option Nat) : Alloc :=
  { a with bCache := fun j => if j = i then p else a.bCache j }

def setHeap (a : Alloc) (p : Nat) (b : Option Block) : Alloc :=
  { a with heap := fun q => if q = p then b else a.heap q }

/-- The probing loop of `get_block` over the first slots of a group: it stops at an empty slot or at one
    that holds block `(c, s)`. -/
def probe (a : Alloc) (c s : Nat) : (n : Nat) → (idx : Nat) → BlockM Nat
  | 0, idx => .ret idx
  | n + 1, idx =>
    match a.bCache idx with
    | none => .ret idx
    | some p => do
      let b ← orFault (a.heap p)
      if c = b.c ∧ s = b.s then .ret idx else a.probe c s n (idx + 1)

/-- The shifting loop of `get_block`: each of the `n` slots up to `start + n` takes its left neighbour's
    pointer. -/
def shift (a : Alloc) (start : Nat) : (n : Nat) → Alloc
  | 0 => a
  | n + 1 => (a.setSlot (start + n + 1) (a.bCache (start + n))).shift start n

/-- `get_block`: the pointer to the block of zone `id`, now in the first slot of its group. -/
def getBlock (a : Alloc) (id : Nat) : BlockM (Nat × Alloc) := do
  let c := getC id
  let s := getS id
  let start := s % cacheGrpNum * cacheGrpSz
  let idx ← a.probe c s (cacheGrpSz - 1) start
  let a' := a.shift start (idx - start)
  match a.bCache idx with
  | none => do
    let b ← readBlockOp c s { zones := .zero, c := 0, s := 0 }
    .ret (a.brk, { a' with brk := a.brk + 1 }.setHeap a.brk (some b) |>.setSlot start (some a.brk))
  | some target => do
    let b ← orFault (a.heap target)
    if c ≠ b.c ∨ s ≠ b.s then do
      let b' ← readBlockOp c s b
      .ret (target, (a'.setHeap target (some b')).setSlot start (some target))
    else .ret (target, a'.setSlot start (some target))

/-- `free_cache` -/
def freeCache (a : Alloc) : Alloc where
  map := a.map
  bCache _ := none
  heap p := if ∃ i < cacheSize, a.bCache i = some p then none else a.heap p
  brk := a.brk

/-- `format`: it clears block 0 on the disk and the bitmap in memory, and drops the cache. -/
def format (a : Alloc) : BlockM Alloc := do
  writeBlockOp { zones := .zero, c := 0, s := 0 }
  let map ← orFault (setState .zero 4 dOccupied)
  .ret { a with map := map }.freeCache

/-- The static variables when a process starts. -/
def start : Alloc := ⟨.zero, fun _ => none, fun _ => none, 0⟩

/-- `alloc_init`, once connected -/
def init (a : Alloc) : BlockM Alloc := do
  let (p, a) ← a.getBlock 0
  let b ← orFault (a.heap p)
  .ret { a with map := b.zones.sub 0 256 }

/-- `alloc_final` up to the closing of the connection -/
def final (a : Alloc) : BlockM Alloc := do
  let (p, a) ← a.getBlock 0
  let b ← orFault (a.heap p)
  let b := { b with zones := b.zones.blit 0 (a.map.slice 0 256) }
  writeBlockOp b
  .ret (a.setHeap p (some b)).freeCache

/-- The end of `alloc_final`: send E until the answer is BYE; `fuel` bounds the answers. -/
def closeDisk {S : Sig} : (fuel : Nat) → Prog S Unit
  | 0 => .fault
  | fuel + 1 => do
    sendMsg (lit "E")
    if (← getMsgStr) ≠ lit "BYE" then closeDisk fuel else .ret ()

/-- `read_zone`: the zone that the returned pointer denotes; `none` is the null pointer. -/
def readZone (a : Alloc) (id : Int) : BlockM (Option Zone × Alloc) :=
  if id < 4 then .ret (none, a)
  else do
    let (p, a) ← a.getBlock id.toNat
    let b ← orFault (a.heap p)
    .ret (some (b.zones.sub (id.toNat % 8 * zoneSize) zoneSize), a)

def writeZone (a : Alloc) (id : Int) (src : Zone) : BlockM Alloc :=
  if id < 4 then .ret a
  else do
    let (p, a) ← a.getBlock id.toNat
    let b ← orFault (a.heap p)
    let b := { b with zones := b.zones.blit (id.toNat % 8 * zoneSize) (src.slice 0 zoneSize) }
    writeBlockOp b
    .ret (a.setHeap p (some b))

end Alloc

end MiniFs
