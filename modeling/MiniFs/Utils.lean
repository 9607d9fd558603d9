import MiniFs.Lib.Prog
import MiniFs.Lib.Bytes

/-! # utils.h and utils.c

The sizes and the zone layouts of the disk, number conversion, the tokenizer, the buffered socket and
the two block transfers of the file server's side. A `buf_sock` keeps no state between calls that a
caller can see, so its buffer is passed as the string that a call leaves in it. -/

namespace MiniFs
open Interact Memory

def bufferSize : Nat := 128
def blockSize : Nat := 512
def cylinders : Nat := 128
def sectors : Nat := 32
abbrev zoneSize : Nat := 64

/-! ## Zones -/

/-- `zone_t`: the 64 bytes that `dentry_t`, `dir_zone_t`, `inode_t`, `data_zone_t` and `idx_zone_t` share. -/
abbrev Zone := Bytes 64

/-- Where a zone of a directory keeps its slots: how many there are, the offset of the first one and the
    offset of `next`. A slot is a 16-bit `id` and ten bytes of `name`. -/
structure Layout where
  subs : Nat
  base : Nat
  nextOff : Nat
  deriving DecidableEq, Repr

/-- `dentry_t`: parent, mode, owner, four slots, next, time. -/
def dentry : Layout := ⟨4, 6, 54⟩

/-- `dir_zone_t`: parent, five slots, next. -/
def dirZone : Layout := ⟨5, 2, 62⟩

namespace Layout

def idOff (L : Layout) (i : Nat) : Nat := L.base + 12 * i
def nameOff (L : Layout) (i : Nat) : Nat := L.base + 12 * i + 2

/-- `subs[i].id` -/
def subId (L : Layout) (z : Zone) (i : Nat) : Int := z.int16 (L.idOff i)

/-- `next` -/
def next (L : Layout) (z : Zone) : Int := z.int16 L.nextOff

/-- `subs[i].id = id` -/
def setSubId (L : Layout) (z : Zone) (i : Nat) (id : Int) : Zone := z.blit (L.idOff i) (bytes16 id)

/-- `next = id` -/
def setNext (L : Layout) (z : Zone) (id : Int) : Zone := z.blit L.nextOff (bytes16 id)

/-- `bzero(subs[i].name, 10)` -/
def clearName (L : Layout) (z : Zone) (i : Nat) : Zone := z.blit (L.nameOff i) (List.replicate 10 0)

end Layout

namespace Zone

/-- `parent`, the first field of every zone that has one -/
def parent (z : Zone) : Int := z.int16 0
def mode (z : Zone) : Int := z.int16 2
def owner (z : Zone) : Int := z.int16 4

/-- `inode_t.size` -/
def size (z : Zone) : Int := z.int16 6

/-- `inode_t.ptrs[i]` -/
def ptr (z : Zone) (i : Nat) : Int := z.int16 (8 + 2 * i)

/-- `time` of `dentry_t` and `inode_t`, an `unsigned long` -/
def time (z : Zone) : Nat := z.nat64 56

/-- `idx_zone_t.zones[i]` -/
def idx (z : Zone) (i : Nat) : Int := z.int16 (2 * i)

def setParent (z : Zone) (v : Int) : Zone := z.blit 0 (bytes16 v)
def setMode (z : Zone) (v : Int) : Zone := z.blit 2 (bytes16 v)
def setSize (z : Zone) (v : Int) : Zone := z.blit 6 (bytes16 v)
def setPtr (z : Zone) (i : Nat) (v : Int) : Zone := z.blit (8 + 2 * i) (bytes16 v)
def setTime (z : Zone) (t : UInt64) : Zone := z.blit 56 (bytes64 t)
def setIdx (z : Zone) (i : Nat) (v : Int) : Zone := z.blit (2 * i) (bytes16 v)

/-- The C string at offset `off`; one that does not end inside the zone is read past its end. -/
def cstr? (z : Zone) (off : Nat) : Option Str :=
  if (z.cstr off).length < 64 - off then some (z.cstr off) else none

end Zone

/-- `block_t`: eight zones and the address of the block on the disk -/
structure Block where
  zones : Bytes 512
  c : Nat
  s : Nat

/-! ## Strings and numbers -/

/-- `digs` of `itoa`: the digits of `val`, the last one first. -/
def digs : Nat → Nat → List Byte
  | 0, _ => []
  | room + 1, val => if val = 0 then [] else UInt8.ofNat (48 + val % 10) :: digs room (val / 10)

/-- `itoa`: append the decimal numeral of `val` to `str`. The smallest `long` has no negative. -/
def itoa (str : Str) (val : Int) : Option Str :=
  if val = 0 then some (str ++ lit "0")
  else if val = -2 ^ 63 then none
  else some (str ++ (if val < 0 then lit "-" else []) ++ (digs 20 val.natAbs).reverse)

def isspace (c : Byte) : Bool := c == 32 || (9 ≤ c && c ≤ 13)

def isdigit (c : Byte) : Bool := 48 ≤ c && c ≤ 57

/-- The number that digits spell, after `acc`. -/
def digitsVal (acc : Nat) : Str → Nat
  | [] => acc
  | c :: s => if isdigit c then digitsVal (10 * acc + (c.toNat - 48)) s else acc

/-- The number that the numeral at the start of a string stands for: white space, a sign, digits. -/
def numeralVal (s : Str) : Int :=
  match s.dropWhile isspace with
  | [] => 0
  | c :: t => if c = 45 then -(digitsVal 0 t) else if c = 43 then digitsVal 0 t else digitsVal 0 (c :: t)

/-- `strtol` of the C library in base ten: a number that is no `long` gives the nearest one. -/
def strtol (s : Str) : Int := max (-2 ^ 63) (min (2 ^ 63 - 1) (numeralVal s))

/-- `atoi` of the C library: the `long` that `strtol` returns, cut to an `int`. -/
def atoi (s : Str) : Int := (strtol s).bmod (2 ^ 32)

/-- The loop of `get_toks` from position `pos`, in a word or between words, with `len` tokens found: the
    rewritten rest of the string and the positions of the tokens in it. -/
def getToksFrom (size : Nat) : Str → Nat → Bool → Nat → Str × List Nat
  | [], _, _, _ => ([], [])
  | ch :: str, pos, false, len =>
    if isspace ch then
      let r := getToksFrom size str (pos + 1) false len
      (ch :: r.1, r.2)
    else if len + 1 = size - 1 then (ch :: str, [pos])
    else
      let r := getToksFrom size str (pos + 1) true (len + 1)
      (ch :: r.1, pos :: r.2)
  | ch :: str, pos, true, len =>
    if isspace ch then
      let r := getToksFrom size str (pos + 1) false len
      (0 :: r.1, r.2)
    else
      let r := getToksFrom size str (pos + 1) true len
      (ch :: r.1, r.2)

/-- `get_toks`: `str` with a NUL after each token, and where the tokens start. -/
def getToks (str : Str) (size : Nat) : Str × List Nat := getToksFrom size str 0 false 0

/-- The tokens as the C strings that their pointers denote. -/
def toks (str : Str) (size : Nat) : List Str :=
  (getToks str size).2.map fun pos => ((getToks str size).1.drop pos).takeWhile (· != 0)

/-- What `toks[i]` holds after `get_toks` has found the tokens `ts`: `none` is a slot that it has not written,
    `some none` the null pointer. -/
def tokSlot {α : Type} (ts : List α) (i : Nat) : Option (Option α) :=
  if i ≤ ts.length then some ts[i]? else none

/-! ## The socket -/

section Socket
variable {S : Sig}

/-- A C expression without a defined value. -/
def orFault {α : Type} : Option α → Prog S α
  | some a => .ret a
  | none => .fault

/-- A string on the wire. -/
def packet (s : Str) : Msg := s ++ [0]

def sendMsg (msg : Str) : Prog S Unit := .write (msg.take (bufferSize - 1) ++ [0]) (.ret ())

/-- `get_msg`: `none` is the null pointer. -/
def getMsg : Prog S (Option Str) :=
  .read (bufferSize - 1) fun m => .ret (if m.getLast? = some 0 then some (m.takeWhile (· != 0)) else none)

/-- `get_msg` where the caller passes the result to `strcmp` or `atoi`. -/
def getMsgStr : Prog S Str := do orFault (← getMsg)

/-- `send_data` of the buffer's first bytes, with its result. -/
def sendData (data : List Byte) : Prog S Int :=
  if bufferSize < data.length then .ret (-1) else .write data (.ret data.length)

def getData (len : Int) : Prog S (List Byte) := .read (min len bufferSize).toNat .ret

/-- `init_str`: the buffer holds the empty string. -/
def initStr : Str := []

def catStr (buffer str : Str) : Str := buffer ++ str.take (bufferSize - buffer.length - 1)

/-- `cat_int`, which does not look at the size of the buffer. -/
def catInt (buffer : Str) (val : Int) : Option Str :=
  match itoa buffer val with
  | some b => if b.length < bufferSize then some b else none
  | none => none

def sendStr (buffer : Str) : Prog S Unit := .write (buffer ++ [0]) (.ret ())

end Socket

/-! ## Block transfer -/

section Transfer
variable {S : Sig}

/-- The request line of `read_block`. -/
def readRequest (c s : Int) : Option Str := do
  let b ← catInt (catStr initStr (lit "R ")) c
  catInt (catStr b (lit " ")) s

/-- The loop of `read_block`: `num` bytes are still to come; `done` has come. Every round but a last one
    on a closed connection brings a byte, so `fuel` rounds are enough for `fuel` bytes. -/
def readChunks : (fuel : Nat) → (num : Int) → List Byte → Prog S (List Byte)
  | 0, num, done => if num > 0 then .fault else .ret done
  | fuel + 1, num, done =>
    if num > 0 then do
      sendMsg (lit "EXPECT")
      let data ← getData num
      readChunks fuel (num - data.length) (done ++ data)
    else .ret done

/-- `read_block`: what `dest` holds afterwards. -/
def readBlock (c s : Nat) (dest : Block) : Prog S Block := do
  sendStr (← orFault (readRequest c s))
  let reply ← getMsgStr
  if reply.take 7 ≠ lit "FOLLOW " ∨ atoi (reply.drop 7) ≠ blockSize then .ret dest
  else do
    let data ← readChunks blockSize blockSize []
    .ret { zones := dest.zones.blit 0 data, c := c, s := s }

/-- The request line of `write_block`. -/
def writeRequest (c s : Int) : Option Str := do
  let b ← catInt (catStr initStr (lit "W ")) c
  let b ← catInt (catStr b (lit " ")) s
  catInt (catStr b (lit " ")) ((blockSize - 1) / bufferSize + 1)

/-- The loop of `write_block` over the bytes still to send. A reply other than EXPECT is reported and the
    loop goes on; `fuel` bounds the replies. -/
def writeChunks : (fuel : Nat) → List Byte → Prog S Unit
  | _, [] => .ret ()
  | 0, _ :: _ => .fault
  | fuel + 1, data => do
    let reply ← getMsgStr
    if reply ≠ lit "EXPECT" then writeChunks fuel data
    else do
      let _ ← sendData (data.take bufferSize)
      writeChunks fuel (data.drop bufferSize)

def writeBlock (src : Block) : Prog S Unit := do
  sendStr (← orFault (writeRequest src.c src.s))
  writeChunks blockSize (src.zones.slice 0 blockSize)
  let _ ← getMsgStr
  .ret ()

end Transfer

end MiniFs
