import MiniFs.Path

/-! # server.c

The commands of the file server. A command returns 0 when it succeeds and 1 when it fails. The pointer
`pwd` of path.c is passed to them; `change` returns the new one. -/

namespace MiniFs
open Interact Memory

/-- `mk_file` and `mk_dir`: `state` is the new zone's state and `make` its content, given the id of the
    parent directory and the time. -/
def mkNode (state : Byte) (make : Int → UInt64 → Zone) (pwd : PathT) (pathStr : Str) : FsM Nat := do
  match ← getPath pwd pathStr with
  | (some _, _) => .ret 1
  | (none, cut) => do
    let (name, rest) ← orFault (rmName cut)
    match ← getPath pwd rest with
    | (none, _) => .ret 1
    | (some path, _) => do
      if (← Fs.getState path.id) ≠ dOccupied then .ret 1
      else
        let id ← Fs.getFreeId state
        if id < 0 then .ret 1
        else
          let now ← Fs.time
          Fs.writeZone id (make path.id now)
          addSub path.id id name
          .ret 0

/-- The inode that `mk_file` writes. -/
def newInode (parent : Int) (now : UInt64) : Zone :=
  (((Zone.setParent .zero parent).setMode 493).setSize 1).setTime now

/-- The dentry that `mk_dir` writes. -/
def newDentry (parent : Int) (now : UInt64) : Zone := ((Zone.setParent .zero parent).setMode 493).setTime now

def mkFile (pwd : PathT) (pathStr : Str) : FsM Nat := mkNode iOccupied newInode pwd pathStr

def mkDir (pwd : PathT) (pathStr : Str) : FsM Nat := mkNode dOccupied newDentry pwd pathStr

/-- `rm_file` and `rm_dir`: `rm` frees the zones of the object. The result is the status and what the
    argument denotes afterwards. -/
def rmNode (rm : Int → FsM Unit) (pwd : PathT) (pathStr : Str) : FsM (Nat × Str) := do
  match ← getPath pwd pathStr with
  | (none, cut) => .ret (1, cut)
  | (some path, cut) => do
    match ← Fs.readZone path.id with
    | none => .ret (1, cut)
    | some zone => do
      rm path.id
      rmSub zone.parent path.id
      .ret (0, cut)

def rmFile (pwd : PathT) (filePath : Str) : FsM (Nat × Str) := rmNode rmInode pwd filePath

def rmDir (pwd : PathT) (dirPath : Str) : FsM (Nat × Str) := rmNode rmDentry pwd dirPath

def list (pwd : PathT) (pathStr : Str) : FsM Nat := do
  match ← getPath pwd pathStr with
  | (none, _) => .ret 1
  | (some path, _) => do
    sendMsg (lit "2")
    if (← getMsgStr) = lit "ACK" then
      let len ← getLsLen path.id
      sendStr (← orFault (catInt initStr len))
      let state ← Fs.getState path.id
      if state = iOccupied then do
        showFile path.id
        .ret 0
      else if state = dOccupied then do
        catDir path.id
        .ret 0
      else do
        let _ ← Fs.getState path.id
        .ret 1
    else .ret 1

def cat (pwd : PathT) (filePath : Str) : FsM Nat := do
  match ← getPath pwd filePath with
  | (none, _) => .ret 1
  | (some path, _) => do
    if (← Fs.getState path.id) = iOccupied then
      match ← Fs.readZone path.id with
      | some zone => do
        sendMsg (lit "2")
        if (← getMsgStr) = lit "ACK" then
          sendStr (← orFault (catInt initStr (getCatLen (zone.size % 2 ^ 32).toNat)))
          catFile path.id
          .ret 0
        else .ret 0
      | none => .ret 1
    else .ret 1

def append (pwd : PathT) (filePath str : Str) : FsM Nat := do
  match ← getPath pwd filePath with
  | (none, _) => .ret 1
  | (some path, _) => do
    if (← Fs.getState path.id) ≠ iOccupied then .ret 1
    else
      match ← Fs.readZone path.id with
      | none => .ret 1
      | some inode =>
        if str.length > 0 then do
          let inode ← addData zoneFuel inode str
          Fs.writeZone path.id inode
          .ret 0
        else .ret 0

/-- `strcpy(f_path_cpy, file_path)` -/
def fPathCpy (filePath : Str) : Option Str := if filePath.length < 64 then some filePath else none

/-- The last line of `wrt`. -/
def wrtNew (pwd : PathT) (copy filePath str : Str) : FsM Nat := do
  if (← mkFile pwd copy) = 0 then append pwd filePath str else .ret 1

def wrt (pwd : PathT) (filePath str : Str) : FsM Nat := do
  let copy ← orFault (fPathCpy filePath)
  match ← getPath pwd filePath with
  | (none, cut) => wrtNew pwd copy cut str
  | (some path, cut) => do
    if (← Fs.getState path.id) = iOccupied then
      let (_, cut') ← rmFile pwd cut
      wrtNew pwd copy cut' str
    else .ret 1

/-- The status and the new working directory. -/
def change (pwd : PathT) (dirPath : Str) : FsM (Nat × PathT) := do
  match ← getPath pwd dirPath with
  | (none, _) => .ret (1, pwd)
  | (some path, _) => do
    if (← Fs.getState path.id) ≠ dOccupied then .ret (1, pwd) else .ret (0, path)

/-- The status message of a command with result `status`. -/
def reply (status : Nat) : FsM Unit := sendMsg (if status ≠ 0 then lit "4" else lit "0")

/-- A command that answers with its status. -/
def status (pwd : PathT) (command : FsM Nat) : FsM (Option PathT) := do
  reply (← command)
  .ret (some pwd)

/-- A command that reports failures only. -/
def failure (pwd : PathT) (command : FsM Nat) : FsM (Option PathT) := do
  if (← command) ≠ 0 then
    sendMsg (lit "4")
    .ret (some pwd)
  else .ret (some pwd)

/-- A creating command, which answers 4 to a path of more than nine characters. -/
def create (make : PathT → Str → FsM Nat) (pwd : PathT) (path : Str) : FsM (Option PathT) :=
  status pwd (if path.length > 9 then .ret 1 else make pwd path)

/-- The answer of `interpret` to the tokens of a request: the working directory for the next one, `none`
    to stop. -/
def interpret (pwd : PathT) (tokens : List Str) : FsM (Option PathT) :=
  match tokens with
  | [t] =>
    if t = lit "exit" then do
      sendMsg (lit "3")
      .ret none
    else if t = lit "ls" then do
      let _ ← list pwd (lit ".")
      .ret (some pwd)
    else do
      sendMsg (lit "-1")
      .ret (some pwd)
  | [t, a] =>
    if t = lit "touch" then create mkFile pwd a
    else if t = lit "mkdir" then create mkDir pwd a
    else if t = lit "rm" then status pwd do .ret (← rmFile pwd a).1
    else if t = lit "rmdir" then status pwd do .ret (← rmDir pwd a).1
    else if t = lit "ls" then failure pwd (list pwd a)
    else if t = lit "cat" then failure pwd (cat pwd a)
    else if t = lit "cd" then do
      let (s, pwd') ← change pwd a
      reply s
      .ret (some pwd')
    else do
      sendMsg (lit "-1")
      .ret (some pwd)
  | [t, a, b] =>
    if t = lit "write" then status pwd (wrt pwd a b)
    else if t = lit "append" then status pwd (append pwd a b)
    else do
      sendMsg (lit "-1")
      .ret (some pwd)
  | _ => do
    sendMsg (lit "-1")
    .ret (some pwd)

/-- One round of the loop of `interpret`: wait for a request and answer it. -/
def serve (pwd : PathT) : FsM (Option PathT) := do
  match ← getMsg with
  | none => .ret none
  | some request => interpret pwd (toks request 6)

end MiniFs
