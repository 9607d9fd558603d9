import MiniFs.Server
import MiniFs.Lib.Heap

/-! # path.c and server.c with their nodes

The functions of path.c allocate the `path_t` nodes that they return, and the commands of server.c free them. Here they are
once more with this memory and with the pointer `pwd`. The name that `get_sub_path` copies to a node is never read, so a
node has none; a `calloc` that fails is left out. -/

namespace MiniFs.Nodes
open Interact Memory

/-- A `path_t *` that is not null. -/
inductive Ptr where
  | rootDir
  | node (addr : Nat)
  deriving DecidableEq, Repr

/-- `path_t` -/
structure Node where
  id : Int
  prev : Option Ptr

/-- The nodes that are alive, `pwd`, and the addresses that `calloc` takes next where they are free. -/
structure Mem where
  heap : Heap Node
  pwd : Option Ptr
  wishes : Nat → Nat

/-- A program of the file server with nodes. -/
abbrev NodeM := StateT Mem FsM

/-- `*p`; the static `root_dir` has no predecessor. -/
def deref (p : Option Ptr) : NodeM Node := fun w =>
  match p with
  | none => .fault
  | some .rootDir => .ret (⟨4, none⟩, w)
  | some (.node a) =>
    match w.heap.cell a with
    | none => .fault
    | some n => .ret (n, w)

/-- `calloc(1, sizeof(path_t))` -/
def calloc : NodeM Nat := fun w =>
  let a := w.heap.pick (w.wishes 0)
  .ret (a, { w with heap := w.heap.put a ⟨0, none⟩, wishes := fun n => w.wishes (n + 1) })

/-- An assignment to a node that was allocated. -/
def assign (a : Nat) (f : Node → Node) : NodeM Unit := fun w =>
  match w.heap.cell a with
  | none => .fault
  | some n => .ret ((), { w with heap := w.heap.put a (f n) })

/-- `free(p)`, undefined for an object that is static or not alive. -/
def free (p : Option Ptr) : NodeM Unit := fun w =>
  match p with
  | none => .ret ((), w)
  | some .rootDir => .fault
  | some (.node a) =>
    match w.heap.cell a with
    | none => .fault
    | some _ => .ret ((), { w with heap := w.heap.free a })

/-! ## path.c -/

/-- The recursion of `free_path`. -/
def freePathFrom : (fuel : Nat) → (node : Option Ptr) → NodeM Unit
  | 0, _ => fun _ => .fault
  | fuel + 1, node =>
    if node = some .rootDir then pure ()
    else do
      freePathFrom fuel (← deref node).prev
      free node

/-- `free_path`: no path is longer than there are nodes. -/
def freePath (node : Option Ptr) : NodeM Unit := fun w => freePathFrom (w.heap.limit + 1) node w

/-- The recursion of `path_clone`. -/
def pathCloneFrom : (fuel : Nat) → (oldNode : Option Ptr) → NodeM (Option Ptr)
  | 0, _ => fun _ => .fault
  | fuel + 1, oldNode =>
    if oldNode = some .rootDir then pure (some .rootDir)
    else do
      let newNode ← calloc
      let old ← deref oldNode
      assign newNode fun n => { n with id := old.id }
      let prev ← pathCloneFrom fuel old.prev
      assign newNode fun n => { n with prev := prev }
      pure (some (.node newNode))

def pathClone (oldNode : Option Ptr) : NodeM (Option Ptr) := fun w => pathCloneFrom (w.heap.limit + 1) oldNode w

def getSubPath (parent : Option Ptr) (name : Str) : NodeM (Option Ptr) := do
  match ← Fs.readZone (← deref parent).id with
  | none => pure none
  | some pDir => do
    let mem := frame pDir (← Fs.stack pDir name)
    match scanSubs mem name 10 0 with
    | none => pure none
    | some idx => do
      let sub ← calloc
      assign sub fun n => { n with id := int16Of (mem (dentry.idOff idx)) (mem (dentry.idOff idx + 1)) }
      if 2 + name.length + 1 ≤ 16 then do
        assign sub fun n => { n with prev := parent }
        pure (some (.node sub))
      else fun _ => .fault

def getPathFromRoot : (fuel : Nat) → (curr : Option Ptr) → (path : Str) → NodeM (Option Ptr × Str)
  | 0, _, _ => fun _ => .fault
  | fuel + 1, curr, path =>
    if path = [] ∨ path = lit "." then pure (curr, path)
    else if path = lit ".." then do
      if (← deref curr).prev ≠ none then do
        let ret := (← deref curr).prev
        free curr
        pure (ret, path)
      else do
        freePath curr
        pure (none, path)
    else if path.take 2 = lit "./" then do
      let (r, rest) ← getPathFromRoot fuel curr (path.drop 2)
      pure (r, path.take 2 ++ rest)
    else if path.take 3 = lit "../" then do
      if (← deref curr).prev ≠ none then do
        let (ret, rest) ← getPathFromRoot fuel (← deref curr).prev (path.drop 3)
        free curr
        pure (ret, path.take 3 ++ rest)
      else do
        freePath curr
        pure (none, path)
    else do
      if (← Fs.getState (← deref curr).id) ≠ dOccupied then do
        freePath curr
        pure (none, path)
      else do
        let name := path.takeWhile (· ≠ slash)
        match ← getSubPath curr name with
        | none => do
          freePath curr
          pure (none, name)
        | some sub =>
          if name.length < path.length then do
            let (r, _) ← getPathFromRoot fuel (some sub) (path.drop (name.length + 1))
            pure (r, name)
          else pure (some sub, name)

def getPathFromPwd : (fuel : Nat) → (curr : Option Ptr) → (path : Str) → NodeM (Option Ptr × Str)
  | 0, _, _ => fun _ => .fault
  | fuel + 1, curr, path =>
    if path = [] ∨ path = lit "." then do
      pure (← pathClone curr, path)
    else if path = lit ".." then do
      if (← deref curr).prev ≠ none then do
        pure (← pathClone (← deref curr).prev, path)
      else pure (none, path)
    else if path.take 2 = lit "./" then do
      let (r, rest) ← getPathFromPwd fuel curr (path.drop 2)
      pure (r, path.take 2 ++ rest)
    else if path.take 3 = lit "../" then do
      if (← deref curr).prev ≠ none then do
        let (r, rest) ← getPathFromRoot fuel (← pathClone (← deref curr).prev) (path.drop 3)
        pure (r, path.take 3 ++ rest)
      else pure (none, path)
    else do
      if (← Fs.getState (← deref curr).id) ≠ dOccupied then pure (none, path)
      else do
        getPathFromRoot fuel (← pathClone curr) path

/-- The pointer `pwd`. -/
def getPwd : NodeM (Option Ptr) := fun w => .ret (w.pwd, w)

def getPath (path : Str) : NodeM (Option Ptr × Str) :=
  match path with
  | [] => do getPathFromPwd 2 (← getPwd) []
  | c :: rest =>
    if c = slash then do
      let (r, rest') ← getPathFromRoot (rest.length + 1) (some .rootDir) rest
      pure (r, slash :: rest')
    else do getPathFromPwd (path.length + 2) (← getPwd) path

/-- `pwd = path` -/
def setPwd (path : Option Ptr) : NodeM Unit := fun w => .ret ((), { w with pwd := path })

def cwdTo (path : Option Ptr) : NodeM Unit := do
  freePath (← getPwd)
  setPwd path

/-! ## server.c -/

/-- `mk_file` and `mk_dir` -/
def mkNode (state : Byte) (make : Int → UInt64 → Zone) (pathStr : Str) : NodeM Nat := do
  let (r, cut) ← getPath pathStr
  if r ≠ none then do
    freePath r
    pure 1
  else do
    let (name, rest) ← (orFault (rmName cut) : FsM (Str × Str))
    let (path, _) ← getPath rest
    if path = none then pure 1
    else do
      if (← Fs.getState (← deref path).id) ≠ dOccupied then do
        freePath path
        pure 1
      else do
        let id ← Fs.getFreeId state
        if id < 0 then do
          freePath path
          pure 1
        else do
          let now ← Fs.time
          Fs.writeZone id (make (← deref path).id now)
          addSub (← deref path).id id name
          freePath path
          pure 0

def mkFile (pathStr : Str) : NodeM Nat := mkNode iOccupied newInode pathStr

def mkDir (pathStr : Str) : NodeM Nat := mkNode dOccupied newDentry pathStr

/-- `rm_file` and `rm_dir` -/
def rmNode (rm : Int → FsM Unit) (pathStr : Str) : NodeM (Nat × Str) := do
  let (path, cut) ← getPath pathStr
  if path = none then pure (1, cut)
  else do
    match ← Fs.readZone (← deref path).id with
    | none => do
      freePath path
      pure (1, cut)
    | some zone => do
      rm (← deref path).id
      rmSub zone.parent (← deref path).id
      freePath path
      pure (0, cut)

def rmFile (filePath : Str) : NodeM (Nat × Str) := rmNode rmInode filePath

def rmDir (dirPath : Str) : NodeM (Nat × Str) := rmNode rmDentry dirPath

def list (pathStr : Str) : NodeM Nat := do
  let (path, _) ← getPath pathStr
  if path = none then pure 1
  else do
    let id := (← deref path).id
    freePath path
    (sendMsg (lit "2") : FsM Unit)
    if (← (getMsgStr : FsM Str)) = lit "ACK" then do
      let len ← getLsLen id
      let str ← (orFault (catInt initStr len) : FsM Str)
      (sendStr str : FsM Unit)
      let state ← Fs.getState id
      if state = iOccupied then do
        showFile id
        pure 0
      else if state = dOccupied then do
        catDir id
        pure 0
      else do
        let _ ← Fs.getState id
        pure 1
    else pure 1

def cat (filePath : Str) : NodeM Nat := do
  let (path, _) ← getPath filePath
  if path = none then pure 1
  else do
    let id := (← deref path).id
    freePath path
    if (← Fs.getState id) = iOccupied then do
      match ← Fs.readZone id with
      | some zone => do
        (sendMsg (lit "2") : FsM Unit)
        if (← (getMsgStr : FsM Str)) = lit "ACK" then do
          let str ← (orFault (catInt initStr (getCatLen (zone.size % 2 ^ 32).toNat)) : FsM Str)
          (sendStr str : FsM Unit)
          catFile id
          pure 0
        else pure 0
      | none => pure 1
    else pure 1

def append (filePath str : Str) : NodeM Nat := do
  let (path, _) ← getPath filePath
  if path = none then pure 1
  else do
    if (← Fs.getState (← deref path).id) ≠ iOccupied then do
      freePath path
      pure 1
    else do
      let id := (← deref path).id
      let zone ← Fs.readZone id
      freePath path
      match zone with
      | none => pure 1
      | some inode =>
        if str.length > 0 then do
          let inode ← addData zoneFuel inode str
          Fs.writeZone id inode
          pure 0
        else pure 0

/-- The last line of `wrt`. -/
def wrtNew (copy filePath str : Str) : NodeM Nat := do
  if (← mkFile copy) = 0 then append filePath str else pure 1

def wrt (filePath str : Str) : NodeM Nat := do
  let copy ← (orFault (fPathCpy filePath) : FsM Str)
  let (path, cut) ← getPath filePath
  if path = none then wrtNew copy cut str
  else do
    let id := (← deref path).id
    freePath path
    if (← Fs.getState id) = iOccupied then do
      let (_, cut') ← rmFile cut
      wrtNew copy cut' str
    else pure 1

def change (dirPath : Str) : NodeM Nat := do
  let (path, _) ← getPath dirPath
  if path = none then pure 1
  else do
    if (← Fs.getState (← deref path).id) ≠ dOccupied then do
      freePath path
      pure 1
    else do
      cwdTo path
      pure 0

/-- A command that answers with its status. -/
def status (command : NodeM Nat) : NodeM Bool := do
  let s ← command
  reply s
  pure true

/-- A command that reports failures only. -/
def failure (command : NodeM Nat) : NodeM Bool := do
  if (← command) ≠ 0 then do
    (sendMsg (lit "4") : FsM Unit)
    pure true
  else pure true

/-- A creating command. -/
def create (make : Str → NodeM Nat) (path : Str) : NodeM Bool :=
  status (if path.length > 9 then pure 1 else make path)

/-- The answer to a request that is no command. -/
def unknown : NodeM Bool := do
  (sendMsg (lit "-1") : FsM Unit)
  pure true

/-- The answer of `interpret` to the tokens of a request, and whether the server goes on. -/
def interpret (tokens : List Str) : NodeM Bool :=
  match tokens with
  | [t] =>
    if t = lit "exit" then do
      (sendMsg (lit "3") : FsM Unit)
      pure false
    else if t = lit "ls" then do
      let _ ← list (lit ".")
      pure true
    else unknown
  | [t, a] =>
    if t = lit "touch" then create mkFile a
    else if t = lit "mkdir" then create mkDir a
    else if t = lit "rm" then status do pure (← rmFile a).1
    else if t = lit "rmdir" then status do pure (← rmDir a).1
    else if t = lit "ls" then failure (list a)
    else if t = lit "cat" then failure (cat a)
    else if t = lit "cd" then status (change a)
    else unknown
  | [t, a, b] =>
    if t = lit "write" then status (wrt a b)
    else if t = lit "append" then status (append a b)
    else unknown
  | _ => unknown

end MiniFs.Nodes
