import MiniFs.Utils

/-! # disk_mgr.c

The disk server: a loop that answers one request of its client at a time from the disk file. The arm
position `track` only sets how long an access sleeps and is left out. -/

namespace MiniFs
open Interact Memory

/-- The open disk file: its bytes and the file position. -/
structure Disk where
  file : Nat → Byte
  pos : Nat

namespace Disk

/-- `lseek(fd, offset, SEEK_SET)` -/
def lseek (d : Disk) (offset : Nat) : Disk := { d with pos := offset }

/-- The bytes of a complete `read(fd, buffer, len)`. -/
def readBytes (d : Disk) (len : Nat) : List Byte := (List.range len).map fun i => d.file (d.pos + i)

/-- The file after a complete `write(fd, data, n)`. -/
def writeBytes (d : Disk) (data : List Byte) : Disk where
  file o := if d.pos ≤ o ∧ o < d.pos + data.length then data.getD (o - d.pos) 0 else d.file o
  pos := d.pos + data.length

/-- What `disk_init` does to the file: it stretches it to its size by a byte of zero at the end. -/
def init (d : Disk) : Disk := (d.lseek (blockSize * sectors * cylinders - 1)).writeBytes [0]

end Disk

/-- A program without operations of its own: all it does is talk. -/
abbrev noOps : Sig := ⟨Empty, fun _ => Empty⟩

/-- `get_offset` of an address given as two `unsigned int`s. -/
def getOffset (c s : Nat) : Option Nat :=
  if cylinders ≤ c ∨ sectors ≤ s then none else some (blockSize * (c * sectors + s))

/-- The reply of `send_info`. -/
def diskInfo : Option Str := do
  let b ← catInt (catStr initStr (lit "Disk Info:\n\t")) cylinders
  let b ← catInt (catStr b (lit " CYLINDERS\t")) sectors
  catInt (catStr b (lit " SECTORS\tBLOCK_SIZE = ")) blockSize

/-- The loop of `read_disk`: each round waits for a message, whatever it says, and sends a chunk. -/
def readDiskLoop : (fuel : Nat) → (num : Nat) → Disk → Prog noOps Disk
  | 0, num, d => if num > 0 then .fault else .ret d
  | fuel + 1, num, d =>
    if num > 0 then do
      let _ ← getMsg
      let data := d.readBytes (min bufferSize num)
      let len ← sendData data
      if len < 0 then .fault else readDiskLoop fuel (num - len.toNat) { d with pos := d.pos + data.length }
    else .ret d

def readDisk (d : Disk) (c s : Nat) : Prog noOps Disk :=
  match getOffset c s with
  | none => do
    sendStr (← orFault (catInt (catStr initStr (lit "FOLLOW ")) 0))
    .ret d
  | some offset => do
    sendStr (← orFault (catInt (catStr initStr (lit "FOLLOW ")) blockSize))
    readDiskLoop blockSize blockSize (d.lseek offset)

/-- The loop of `write_disk`: `n` rounds, each of which writes what it receives up to `end`. -/
def writeDiskLoop (end_ : Nat) : (n : Nat) → (offset : Nat) → Disk → Prog noOps Disk
  | 0, _, d => do
    sendMsg (lit "OVER")
    .ret d
  | n + 1, offset, d => do
    sendMsg (lit "EXPECT")
    let data ← getData bufferSize
    let len := if offset + data.length > end_ then end_ - offset else data.length
    writeDiskLoop end_ n (offset + len) (if len > 0 then d.writeBytes (data.take len) else d)

/-- The rounds of `while (--n >= 0)`; below the smallest `int` comes the largest one. -/
def rounds (n : Int) : Nat := if n = -2 ^ 31 then 2 ^ 31 else n.toNat

def writeDisk (d : Disk) (c s : Nat) (n : Int) : Prog noOps Disk :=
  match getOffset c s with
  | none => writeDiskLoop 0 0 0 d
  | some offset => writeDiskLoop (offset + blockSize) (rounds n) offset (d.lseek offset)

/-- The `int` that `atoi` returns as an `unsigned int` argument. -/
def toUnsigned (v : Int) : Nat := (v % 2 ^ 32).toNat

/-- The body of `serv_loop` on one request; `none` ends the loop. -/
def dispatch (d : Disk) (tokens : List Str) : Prog noOps (Option Disk) :=
  match tokens with
  | [] => .fault
  | [t] =>
    if t = lit "E" then do
      sendMsg (lit "BYE")
      .ret none
    else if t = lit "I" then do
      sendStr (← orFault diskInfo)
      .ret (some d)
    else do
      sendMsg (lit "INVALID COMMAND")
      .ret (some d)
  | [t, a, b] =>
    if t = lit "R" then do
      .ret (some (← readDisk d (toUnsigned (atoi a)) (toUnsigned (atoi b))))
    else do
      sendMsg (lit "INVALID COMMAND")
      .ret (some d)
  | [t, a, b, n] =>
    if t = lit "W" then do
      .ret (some (← writeDisk d (toUnsigned (atoi a)) (toUnsigned (atoi b)) (atoi n)))
    else do
      sendMsg (lit "INVALID COMMAND")
      .ret (some d)
  | _ => do
    sendMsg (lit "INVALID COMMAND")
    .ret (some d)

/-- What a request asks for. -/
inductive Command where
  | exit
  | info
  | read (c s : Str)
  | write (c s n : Str)
  | invalid

/-- `!strcmp(toks[i], s)`, undefined where `toks[i]` is not a string. -/
def isTok (tokens : List Str) (i : Nat) (s : Str) : Option Bool := (tokSlot tokens i).join.map (· = s)

/-- `NULL == toks[i]`, undefined where `get_toks` has not written `toks[i]`. -/
def isEnd (tokens : List Str) (i : Nat) : Option Bool := (tokSlot tokens i).map Option.isNone

/-- `NULL != toks[i]` -/
def isSet (tokens : List Str) (i : Nat) : Option Bool := (tokSlot tokens i).map Option.isSome

/-- `a && b`: the second operand has a value only if it is needed. -/
def both (a b : Option Bool) : Option Bool :=
  match a with
  | some true => b
  | _ => a

/-- The tests of `serv_loop` one by one, on the slots of its array `toks`. -/
def command (tokens : List Str) : Option Command := do
  if ← both (isTok tokens 0 (lit "E")) (isEnd tokens 1) then some .exit
  else if ← both (isTok tokens 0 (lit "I")) (isEnd tokens 1) then some .info
  else if ← both (isTok tokens 0 (lit "R")) (both (isSet tokens 1) (both (isSet tokens 2) (isEnd tokens 3))) then
    some (.read (← (tokSlot tokens 1).join) (← (tokSlot tokens 2).join))
  else if ← both (isTok tokens 0 (lit "W"))
      (both (isSet tokens 1) (both (isSet tokens 2) (both (isSet tokens 3) (isEnd tokens 4)))) then
    some (.write (← (tokSlot tokens 1).join) (← (tokSlot tokens 2).join) (← (tokSlot tokens 3).join))
  else some .invalid

/-- The branches of `serv_loop`. -/
def answer (d : Disk) : Command → Prog noOps (Option Disk)
  | .exit => do
    sendMsg (lit "BYE")
    .ret none
  | .info => do
    sendStr (← orFault diskInfo)
    .ret (some d)
  | .read c s => do
    .ret (some (← readDisk d (toUnsigned (atoi c)) (toUnsigned (atoi s))))
  | .write c s n => do
    .ret (some (← writeDisk d (toUnsigned (atoi c)) (toUnsigned (atoi s)) (atoi n)))
  | .invalid => do
    sendMsg (lit "INVALID COMMAND")
    .ret (some d)

/-- One round of `serv_loop`: wait for a request and answer it. -/
def servLoop (d : Disk) : Prog noOps (Option Disk) := do
  match ← getMsg with
  | none => .ret none
  | some request => dispatch d (toks request 6)

end MiniFs
