import MiniFs.Alloc

/-! # fs_lib.c

Directories, inodes and the records that are sent to a client, over the interface of alloc.h. Three
operations stand for what the C program takes from outside of its own state: the clock (`time`), the
bytes that lie above a local `dentry_t` on the stack (`stack`), and the value of a function that ends
without `return` (`unset`). Recursion along zones is on a fuel; running out of it is a recursion that
does not return. -/

namespace MiniFs
open Interact Memory

inductive FsOp where
  | getState (id : Int)
  | getFreeId (state : Byte)
  | setFreeId (id : Int)
  | readZone (id : Int)
  | writeZone (id : Int) (zone : Zone)
  | time
  | stack (pDir : Zone) (name : Str)
  | unset

def FsOp.Ans : FsOp → Type
  | getState _ => Byte
  | getFreeId _ => Int
  | setFreeId _ => Unit
  | readZone _ => Option Zone
  | writeZone .. => Unit
  | time => UInt64
  | stack .. => Nat → Byte
  | unset => Int

abbrev fsSig : Sig := ⟨FsOp, FsOp.Ans⟩

/-- A program of the file server: it works on zones and talks to the client. -/
abbrev FsM := Prog fsSig

namespace Fs

def getState (id : Int) : FsM Byte := .op (.getState id) .ret
def getFreeId (state : Byte) : FsM Int := .op (.getFreeId state) .ret
def setFreeId (id : Int) : FsM Unit := .op (.setFreeId id) .ret
def readZone (id : Int) : FsM (Option Zone) := .op (.readZone id) .ret
def writeZone (id : Int) (zone : Zone) : FsM Unit := .op (.writeZone id zone) .ret
def time : FsM UInt64 := .op .time .ret
def stack (pDir : Zone) (name : Str) : FsM (Nat → Byte) := .op (.stack pDir name) .ret
def unset : FsM Int := .op .unset .ret

end Fs

/-- A bound on recursion along zones: there are no more zones than 16-bit ids. -/
def zoneFuel : Nat := 32768

/-! ## Loops over the slots of a zone -/

/-- `for (idx=N-1; idx>0; idx--) if (subs[idx-1].id) break;` from `idx` down. -/
def lastFree (L : Layout) (z : Zone) : (idx : Nat) → Nat
  | 0 => 0
  | idx + 1 => if L.subId z idx ≠ 0 then idx + 1 else lastFree L z idx

/-- `while (sub_idx>=0 && 0 == subs[sub_idx].id) sub_idx--;` from `sub_idx - 1` down. -/
def lastUsed (L : Layout) (z : Zone) : (subIdx : Nat) → Option Nat
  | 0 => none
  | subIdx + 1 => if L.subId z subIdx = 0 then lastUsed L z subIdx else some subIdx

/-- The scan for `id` over `n` slots from `i` on, up to the first free slot. -/
def findSub (L : Layout) (z : Zone) (id : Int) : (n : Nat) → (i : Nat) → Option Nat
  | 0, _ => none
  | n + 1, i =>
    if L.subId z i = 0 then none
    else if id = L.subId z i then some i
    else findSub L z id n (i + 1)

/-- `while (i < N-1 && subs[i+1].id) i++;` for at most `n` rounds. -/
def runEnd (L : Layout) (z : Zone) : (n : Nat) → (i : Nat) → Nat
  | 0, i => i
  | n + 1, i => if L.subId z (i + 1) ≠ 0 then runEnd L z n (i + 1) else i

/-- The number of used slots among `n` slots from `i` on, up to the first free one. -/
def countUsed (L : Layout) (z : Zone) : (n : Nat) → (i : Nat) → Nat
  | 0, _ => 0
  | n + 1, i => if L.subId z i ≠ 0 then countUsed L z n (i + 1) + 1 else 0

/-- Do `f` on the ids `get i`, `get (i+1)`, … of `n` slots up to the first one that is 0, and say whether
    there was none. -/
def whileUsed (get : Nat → Int) (f : Int → FsM Unit) : (n : Nat) → (i : Nat) → FsM Bool
  | 0, _ => .ret true
  | n + 1, i =>
    if get i = 0 then .ret false
    else do
      f (get i)
      whileUsed get f n (i + 1)

/-! ## Adding an entry -/

/-- The common part of `add_sub` and `add_sub_cont` on the copy `zone` of zone `p_id`. -/
def addSubAt (L : Layout) (cont : Int → FsM Unit) (pId id : Int) (name : Str) (zone : Zone) : FsM Unit :=
  if L.next zone ≠ 0 then do
    Fs.writeZone pId zone
    cont (L.next zone)
  else if L.subId zone (L.subs - 1) ≠ 0 then do
    let next ← Fs.getFreeId fOccupied
    Fs.writeZone pId (L.setNext zone next)
    let fresh := dirZone.setSubId (Zone.setParent .zero zone.parent) 0 id
    let fresh ← orFault (fresh.strcpy (dirZone.nameOff 0) name)
    Fs.writeZone (L.next (L.setNext zone next)) fresh
  else do
    let idx := lastFree L zone (L.subs - 1)
    let zone ← orFault ((L.setSubId zone idx id).strcpy (L.nameOff idx) name)
    Fs.writeZone pId zone

def addSubCont : (fuel : Nat) → (pId id : Int) → (name : Str) → FsM Unit
  | 0, _, _, _ => .fault
  | fuel + 1, pId, id, name => do
    match ← Fs.readZone pId with
    | none => .ret ()
    | some zone => addSubAt dirZone (addSubCont fuel · id name) pId id name zone

def addSub (pId id : Int) (name : Str) : FsM Unit := do
  match ← Fs.readZone pId with
  | none => .ret ()
  | some zone =>
    let now ← Fs.time
    addSubAt dentry (addSubCont zoneFuel · id name) pId id name (zone.setTime now)

/-! ## Removing an entry -/

/-- `rm_tail_sub`: its result, and what it copies to `name`. Where it removes an entry, and where the
    zone cannot be read, it ends without `return`. -/
def rmTailSub : (fuel : Nat) → (pId : Int) → FsM (Int × Option Str)
  | 0, _ => .fault
  | fuel + 1, pId => do
    match ← Fs.readZone pId with
    | none => do
      let ret ← Fs.unset
      .ret (ret, none)
    | some zone =>
      if dirZone.next zone = 0 then
        match lastUsed dirZone zone dirZone.subs with
        | some subIdx => do
          let name ← orFault (zone.cstr? (dirZone.nameOff subIdx))
          Fs.writeZone pId (dirZone.clearName (dirZone.setSubId zone subIdx 0) subIdx)
          let ret ← Fs.unset
          .ret (ret, some name)
        | none => .ret (-1, none)
      else rmTailSub fuel (dirZone.next zone)

/-- Move the last used slot `i` of a zone to slot `subIdx` and clear it. -/
def moveLast (L : Layout) (zone : Zone) (subIdx i : Nat) : Option Zone := do
  let moved ←
    if i > subIdx then do
      let name ← zone.cstr? (L.nameOff i)
      (L.setSubId zone subIdx (L.subId zone i)).strcpy (L.nameOff subIdx) name
    else some zone
  some (L.clearName (L.setSubId moved i 0) i)

/-- The common part of `rm_sub` and `rm_sub_cont` on the copy `zone` of zone `p_id`. -/
def rmSubAt (L : Layout) (cont : Int → FsM Unit) (pId id : Int) (zone : Zone) : FsM Unit :=
  match findSub L zone id L.subs 0 with
  | some subIdx =>
    if L.next zone = 0 then do
      let zone ← orFault (moveLast L zone subIdx (runEnd L zone (L.subs - 1 - subIdx) subIdx))
      Fs.writeZone pId zone
    else do
      let (ret, name) ← rmTailSub zoneFuel (L.next zone)
      let zone ← orFault (match name with
        | some name => zone.strcpy (L.nameOff subIdx) name
        | none => some zone)
      Fs.writeZone pId (L.setSubId zone subIdx ret)
  | none => if L.next zone ≠ 0 then cont (L.next zone) else .ret ()

def rmSubCont : (fuel : Nat) → (pId id : Int) → FsM Unit
  | 0, _, _ => .fault
  | fuel + 1, pId, id => do
    match ← Fs.readZone pId with
    | none => .ret ()
    | some zone => rmSubAt dirZone (rmSubCont fuel · id) pId id zone

def rmSub (pId id : Int) : FsM Unit := do
  match ← Fs.readZone pId with
  | none => .ret ()
  | some zone => rmSubAt dentry (rmSubCont zoneFuel · id) pId id zone

/-! ## Freeing files and directories -/

/-- `rm_idx_zone`, where `f` frees what an entry of the index zone refers to. -/
def rmIdxZoneAt (f : Int → FsM Unit) (id : Int) : FsM Unit := do
  match ← Fs.readZone id with
  | none => .ret ()
  | some zone => do
    Fs.setFreeId id
    let _ ← whileUsed zone.idx f 32 0
    .ret ()

def rmIdxZone (id : Int) (flag : Bool) : FsM Unit :=
  rmIdxZoneAt (if flag then rmIdxZoneAt Fs.setFreeId else Fs.setFreeId) id

def rmInode (id : Int) : FsM Unit := do
  match ← Fs.readZone id with
  | none => .ret ()
  | some inode => do
    Fs.setFreeId id
    if ← whileUsed inode.ptr Fs.setFreeId 20 0 then
      if ← whileUsed inode.ptr (rmIdxZone · false) 2 20 then
        let _ ← whileUsed inode.ptr (rmIdxZone · true) 2 22
        .ret ()
      else .ret ()
    else .ret ()

/-- The common part of `rm_dentry` and `rm_dir_zone`. -/
def rmDirAt (L : Layout) (cont : Int → FsM Unit) (id : Int) : FsM Unit := do
  match ← Fs.readZone id with
  | none => .ret ()
  | some zone => do
    Fs.setFreeId id
    if ← whileUsed (L.subId zone) Fs.setFreeId L.subs 0 then
      if L.next zone ≠ 0 then cont (L.next zone) else .ret ()
    else .ret ()

def rmDirZone : (fuel : Nat) → (id : Int) → FsM Unit
  | 0, _ => .fault
  | fuel + 1, id => rmDirAt dirZone (rmDirZone fuel) id

def rmDentry (id : Int) : FsM Unit := rmDirAt dentry (rmDirZone zoneFuel) id

/-! ## Listing -/

def getLsLenCont : (fuel : Nat) → (id : Int) → FsM Int
  | 0, _ => .fault
  | fuel + 1, id => do
    match ← Fs.readZone id with
    | none => Fs.unset
    | some zone =>
      if dirZone.next zone ≠ 0 then do .ret (dirZone.subs + (← getLsLenCont fuel (dirZone.next zone)))
      else .ret (countUsed dirZone zone dirZone.subs 0)

def getLsLen (id : Int) : FsM Int := do
  let state ← Fs.getState id
  if state = iOccupied then .ret 1
  else if state = dOccupied then do
    match ← Fs.readZone id with
    | none => Fs.unset
    | some zone =>
      if dentry.next zone ≠ 0 then do .ret (dentry.subs + (← getLsLenCont zoneFuel (dentry.next zone)))
      else .ret (countUsed dentry zone dentry.subs 0)
  else .ret 0

/-- An `unsigned int` as the `int` that a function returns. -/
def toInt32 (v : Int) : Int := if v % 2 ^ 32 < 2 ^ 31 then v % 2 ^ 32 else v % 2 ^ 32 - 2 ^ 32

/-- `get_cat_len`, in the arithmetic of `unsigned int`. -/
def getCatLen (size : Nat) : Int :=
  if size ≤ 21 then toInt32 (size - 1)
  else if size ≤ 44 then toInt32 (size - 2)
  else if size ≤ 87 then toInt32 (size - 3)
  else if size ≤ 1144 then toInt32 (size - 3 - ((size - 55) / 33 : Nat))
  else toInt32 (size - 37 - ((size - 1112) / 33 : Nat))

/-- The character of `show_mode` for bit `idx` of `mode`. -/
def modeChar (mode : Int) (idx : Nat) : Byte :=
  if mode / 2 ^ idx % 2 = 0 then 45
  else match idx % 3 with
    | 2 => 114
    | 1 => 119
    | _ => 120

def showMode (buffer : Str) (d : Bool) (mode : Int) : Str :=
  buffer ++ (if d then 100 else 45) :: [8, 7, 6, 5, 4, 3, 2, 1, 0].map (modeChar mode)

def showOwner (buffer : Str) (owner : Int) : Option Str := do
  let own := owner / 256 % 256
  let grp := owner % 256
  let b := catStr buffer (lit "\t")
  let b ← if own = 0 then some (catStr b (lit "root")) else catInt (catStr b (lit "user_")) own
  let b := catStr b (lit "\t")
  if grp = 0 then some (catStr b (lit "root")) else catInt (catStr b (lit "group_")) grp

/-- The common part of `show_sub_name` and `show_sub_name_cont`. -/
def showSubNameAt (L : Layout) (cont : Int → FsM Str) (buffer : Str) (pId id : Int) : FsM Str := do
  match ← Fs.readZone pId with
  | none => .ret buffer
  | some zone =>
    match findSub L zone id L.subs 0 with
    | some subIdx => do
      let name ← orFault (zone.cstr? (L.nameOff subIdx))
      .ret (catStr (catStr buffer (lit "\t")) name)
    | none => if L.next zone ≠ 0 then cont (L.next zone) else .ret buffer

def showSubNameCont : (fuel : Nat) → (buffer : Str) → (pId id : Int) → FsM Str
  | 0, _, _, _ => .fault
  | fuel + 1, buffer, pId, id => showSubNameAt dirZone (showSubNameCont fuel buffer · id) buffer pId id

def showSubName (buffer : Str) (pId id : Int) : FsM Str :=
  showSubNameAt dentry (showSubNameCont zoneFuel buffer · id) buffer pId id

/-- The loop of `get_size` and `get_size_cont` over `n` slots from `i` on: `error v` returns `v` from the
    function, `ok size` is the sum after the last slot. `sizeOf` is the size of a subdirectory. -/
def sizeSubs (sizeOf : Zone → FsM Int) (L : Layout) (zone : Zone) :
    (n : Nat) → (i : Nat) → (size : Int) → FsM (Except Int Int)
  | 0, _, size => .ret (.ok size)
  | n + 1, i, size =>
    if L.subId zone i = 0 then .ret (.error size)
    else do
      if (← Fs.getState (L.subId zone i)) = iOccupied then
        match ← Fs.readZone (L.subId zone i) with
        | none => .ret (.error 0)
        | some inode => sizeSubs sizeOf L zone n (i + 1) (size + inode.size)
      else if (← Fs.getState (L.subId zone i)) = dOccupied then
        match ← Fs.readZone (L.subId zone i) with
        | none => .ret (.error 0)
        | some dir => do sizeSubs sizeOf L zone n (i + 1) (size + (← sizeOf dir))
      else .ret (.error 0)

/-- `get_size` on a dentry and `get_size_cont` on a dir_zone. -/
def getSizeAt : (fuel : Nat) → Layout → Zone → FsM Int
  | 0, _, _ => .fault
  | fuel + 1, L, zone => do
    match ← sizeSubs (getSizeAt fuel dentry) L zone L.subs 0 1 with
    | .error v => .ret v
    | .ok size =>
      if L.next zone ≠ 0 then
        match ← Fs.readZone (L.next zone) with
        | none => .ret 0
        | some next => do .ret (size + (← getSizeAt fuel dirZone next))
      else .ret size

def getSize (zone : Zone) : FsM Int := getSizeAt zoneFuel dentry zone

def getSizeCont (zone : Zone) : FsM Int := getSizeAt zoneFuel dirZone zone

/-- An `unsigned long` passed as a `long`. -/
def toLong (v : Nat) : Int := if v < 2 ^ 63 then v else v - 2 ^ 64

/-- The record of `show_file` and `show_dir` up to the name. -/
def showHead (d : Bool) (zone : Zone) (size : Int) : Option Str := do
  let b ← showOwner (showMode initStr d zone.mode) zone.owner
  let b ← catInt (catStr b (lit "\t")) (size * 64)
  catInt (catStr b (lit "\t")) (toLong zone.time)

def showFile (id : Int) : FsM Unit := do
  if (← getMsgStr) = lit "EXPECT" then
    match ← Fs.readZone id with
    | some inode => do
      let b ← orFault (showHead false inode inode.size)
      let b ← showSubName b inode.parent id
      sendStr (catStr b (lit "\n"))
    | none => sendMsg (lit "\n")
  else .ret ()

def showDir (id : Int) : FsM Unit := do
  if (← getMsgStr) = lit "EXPECT" then
    match ← Fs.readZone id with
    | some dir => do
      let size ← getSize dir
      let b ← orFault (showHead true dir size)
      let b ← showSubName b dir.parent id
      sendStr (catStr b (lit "\n"))
    | none => sendMsg (lit "\n")
  else .ret ()

/-- The record that `cat_dir` sends for entry `id`. -/
def catEntry (id : Int) : FsM Unit := do
  if (← Fs.getState id) = dOccupied then showDir id
  else if (← Fs.getState id) = iOccupied then showFile id
  else do
    if (← getMsgStr) = lit "EXPECT" then
      sendMsg (lit "\n")
      let _ ← Fs.getState id
      .ret ()
    else do
      let _ ← Fs.getState id
      .ret ()

/-- `cat_dir_cont`: its test for the null pointer is the wrong way round, so on a zone that can be read it
    only reports an error. -/
def catDirCont (id : Int) : FsM Unit := do
  match ← Fs.readZone id with
  | none => .fault
  | some _ => .ret ()

def catDir (id : Int) : FsM Unit := do
  match ← Fs.readZone id with
  | some zone => do
    if ← whileUsed (dentry.subId zone) catEntry dentry.subs 0 then
      if dentry.next zone ≠ 0 then catDirCont (dentry.next zone) else .ret ()
    else .ret ()
  | none => .ret ()

def catData (id : Int) : FsM Unit := do
  if (← getMsgStr) = lit "EXPECT" then
    match ← Fs.readZone id with
    | some zone => sendStr (zone.cstr 0)
    | none => .fault
  else .ret ()

/-- `cat_idx`, where `f` sends what an entry of the index zone refers to. -/
def catIdxAt (f : Int → FsM Unit) (id : Int) : FsM Unit := do
  match ← Fs.readZone id with
  | none => .ret ()
  | some zone => do
    let _ ← whileUsed zone.idx f 32 0
    .ret ()

def catIdx (id : Int) (flag : Bool) : FsM Unit :=
  catIdxAt (if flag then catIdxAt catData else catData) id

def catFile (id : Int) : FsM Unit := do
  match ← Fs.readZone id with
  | some inode => do
    if ← whileUsed inode.ptr catData 20 0 then
      if ← whileUsed inode.ptr (catIdx · false) 2 20 then
        let _ ← whileUsed inode.ptr (catIdx · true) 2 22
        .ret ()
      else .ret ()
    else .ret ()
  | none => .ret ()

/-! ## Appending -/

/-- `str + len`, which must stay inside the string. -/
def strAt (str : Str) (len : Int) : Option Str :=
  if 0 ≤ len ∧ len ≤ str.length then some (str.drop len.toNat) else none

def wrtData (id : Int) (str : Str) : FsM Int := do
  match ← Fs.readZone id with
  | none => .ret 0
  | some zone => do
    let data ← orFault (zone.cstr? 0)
    if data.length + str.length + 1 ≤ zoneSize then
      Fs.writeZone id (zone.blit data.length (str ++ [0]))
      .ret str.length
    else do
      let len := zoneSize - 1 - data.length
      Fs.writeZone id (zone.blit data.length (str.take len ++ [0]))
      .ret len

/-- `for (idx=…; idx>0; idx--) if (get(idx)) break;` -/
def lastNonzero (get : Nat → Int) : (idx : Nat) → Nat
  | 0 => 0
  | idx + 1 => if get (idx + 1) ≠ 0 then idx + 1 else lastNonzero get idx

/-- The conversion to `signed short`. -/
def toShort (v : Int) : Int := v.bmod 65536

/-- The `while (1)` loop of `wrt_idx` on entry `idx`, with `len` characters written and `n` entries
    left. -/
def wrtIdxLoop (w : Int → Str → FsM Int) (id : Int) (str : Str) :
    (n : Nat) → (idx : Nat) → (len : Int) → Zone → FsM Int
  | n, idx, len, zone => do
    let len := toShort (len + (← w (zone.idx idx) (← orFault (strAt str len))))
    let rest ← orFault (strAt str len)
    match n with
    | n + 1 =>
      if rest ≠ [] then do
        let nId ← Fs.getFreeId fOccupied
        if nId ≥ 0 then
          Fs.writeZone nId .zero
          wrtIdxLoop w id str n (idx + 1) len (zone.setIdx (idx + 1) nId)
        else .ret len
      else do
        Fs.writeZone id zone
        .ret len
    | 0 => do
      Fs.writeZone id zone
      .ret len

/-- `if (!get(0) && strlen(str)>0) { … }`: the first data or index zone of an empty node. -/
def firstZone (empty : Bool) (str : Str) : FsM (Option Int) :=
  if empty ∧ str ≠ [] then do
    let nId ← Fs.getFreeId fOccupied
    if nId ≥ 0 then
      Fs.writeZone nId .zero
      .ret (some nId)
    else .ret none
  else .ret none

/-- `wrt_idx`, where `w` writes to what an entry of the index zone refers to. -/
def wrtIdxAt (w : Int → Str → FsM Int) (id : Int) (str : Str) : FsM Int := do
  match ← Fs.readZone id with
  | none => Fs.unset
  | some zone => do
    let zone := match ← firstZone (zone.idx 0 = 0) str with
      | some nId => zone.setIdx 0 nId
      | none => zone
    let idx := lastNonzero zone.idx 31
    wrtIdxLoop w id str (31 - idx) idx 0 zone

def wrtIdx (id : Int) (str : Str) (flag : Bool) : FsM Int :=
  wrtIdxAt (if flag then wrtIdxAt wrtData else wrtData) id str

/-- `update_size_idx`, where `f` is what an entry of the index zone adds. -/
def updateSizeIdxAt (f : Int → FsM Int) (id : Int) : FsM Int := do
  match ← Fs.readZone id with
  | none => Fs.unset
  | some zone => go zone 32 0 1
where
  go (zone : Zone) : (n : Nat) → (idx : Nat) → (size : Int) → FsM Int
    | 0, _, size => .ret size
    | n + 1, idx, size =>
      if zone.idx idx = 0 then .ret size
      else do go zone n (idx + 1) (size + (← f (zone.idx idx)))

def updateSizeIdx (id : Int) (flag : Bool) : FsM Int :=
  updateSizeIdxAt (if flag then updateSizeIdxAt (fun _ => .ret 1) else fun _ => .ret 1) id

/-- The number of direct pointers in use, among `n` from `idx` on. -/
def countPtrs (inode : Zone) : (n : Nat) → (idx : Nat) → Nat
  | 0, _ => 0
  | n + 1, idx => if inode.ptr idx ≠ 0 then countPtrs inode n (idx + 1) + 1 else 0

def updateSize (inode : Zone) : FsM Int :=
  if inode.ptr 23 ≠ 0 then do .ret (1144 + (← updateSizeIdx (inode.ptr 23) true))
  else if inode.ptr 22 ≠ 0 then do .ret (87 + (← updateSizeIdx (inode.ptr 22) true))
  else if inode.ptr 21 ≠ 0 then do .ret (54 + (← updateSizeIdx (inode.ptr 21) false))
  else if inode.ptr 20 ≠ 0 then do .ret (21 + (← updateSizeIdx (inode.ptr 20) false))
  else .ret (1 + countPtrs inode 20 0)

/-- The first part of `add_data`: write to the last pointer in use. The inode, the index of that pointer
    and the number of characters written. -/
def addDataLast (inode : Zone) (str : Str) : FsM (Zone × Nat × Int) :=
  if inode.ptr 23 ≠ 0 then do .ret (inode, 23, ← wrtIdx (inode.ptr 23) str true)
  else if inode.ptr 22 ≠ 0 then do .ret (inode, 22, ← wrtIdx (inode.ptr 22) str true)
  else if inode.ptr 21 ≠ 0 then do .ret (inode, 21, ← wrtIdx (inode.ptr 21) str false)
  else if inode.ptr 20 ≠ 0 then do .ret (inode, 20, ← wrtIdx (inode.ptr 20) str false)
  else do
    let inode := match ← firstZone (inode.ptr 0 = 0) str with
      | some nId => inode.setPtr 0 nId
      | none => inode
    let idx := lastNonzero inode.ptr 19
    .ret (inode, idx, ← wrtData (inode.ptr idx) str)

/-- `add_data`: the inode afterwards. Each recursion uses one more pointer. -/
def addData : (fuel : Nat) → (inode : Zone) → (str : Str) → FsM Zone
  | 0, _, _ => .fault
  | fuel + 1, inode, str => do
    let (inode, idx, len) ← addDataLast inode str
    let rest ← orFault (strAt str len)
    if rest ≠ [] ∧ idx < 23 then do
      let id ← Fs.getFreeId fOccupied
      if id ≥ 0 then
        Fs.writeZone id .zero
        addData fuel (inode.setPtr (idx + 1) id) rest
      else .ret inode
    else do
      let size ← updateSize inode
      let now ← Fs.time
      .ret ((inode.setSize size).setTime now)

end MiniFs
