import MiniFs.FsLib

/-! # path.c

A `path_t` chain ends in the static `root_dir`, so it is a list of ids above the root. `get_path` cuts
its argument in place; the functions return the string that their argument denotes afterwards. -/

namespace MiniFs
open Interact Memory

/-- `path_t`: `root` is `&root_dir`. -/
inductive PathT where
  | root
  | node (id : Int) (prev : PathT)
  deriving DecidableEq, Repr

namespace PathT

def id : PathT → Int
  | root => 4
  | node id _ => id

def prev : PathT → Option PathT
  | root => none
  | node _ prev => some prev

/-- The ids of the chain, the root last. -/
def ids : PathT → List Int
  | root => [4]
  | node id prev => id :: prev.ids

end PathT

def slash : Byte := 47

/-- `path_clone` -/
def pathClone : PathT → PathT
  | .root => .root
  | .node id prev => .node id (pathClone prev)

/-- The memory from a local `dentry_t` on: its 64 bytes and then the stack above it. -/
def frame (pDir : Zone) (above : Nat → Byte) (i : Nat) : Byte := if i < 64 then pDir.get i else above (i - 64)

/-- The scan of `get_sub_path` over `n` slots from `idx` on. -/
def scanSubs (mem : Nat → Byte) (name : Str) : (n : Nat) → (idx : Nat) → Option Nat
  | 0, _ => none
  | n + 1, idx => if eqStr mem (dentry.nameOff idx) name then some idx else scanSubs mem name n (idx + 1)

/-- `get_sub_path` scans ten slots, six more than a dentry has. The name is copied to a `path_t` of 16
    bytes from its third byte on. -/
def getSubPath (parent : PathT) (name : Str) : FsM (Option PathT) := do
  match ← Fs.readZone parent.id with
  | none => .ret none
  | some pDir => do
    let mem := frame pDir (← Fs.stack pDir name)
    match scanSubs mem name 10 0 with
    | none => .ret none
    | some idx =>
      if 2 + name.length + 1 ≤ 16 then
        .ret (some (.node (int16Of (mem (dentry.idOff idx)) (mem (dentry.idOff idx + 1))) parent))
      else .fault

/-- `get_path_from_root`: the node and what `path` denotes afterwards. -/
def getPathFromRoot : (fuel : Nat) → (curr : PathT) → (path : Str) → FsM (Option PathT × Str)
  | 0, _, _ => .fault
  | fuel + 1, curr, path =>
    if path = [] ∨ path = lit "." then .ret (some curr, path)
    else if path = lit ".." then .ret (curr.prev, path)
    else if path.take 2 = lit "./" then do
      let (r, rest) ← getPathFromRoot fuel curr (path.drop 2)
      .ret (r, path.take 2 ++ rest)
    else if path.take 3 = lit "../" then
      match curr.prev with
      | none => .ret (none, path)
      | some prev => do
        let (r, rest) ← getPathFromRoot fuel prev (path.drop 3)
        .ret (r, path.take 3 ++ rest)
    else do
      if (← Fs.getState curr.id) ≠ dOccupied then .ret (none, path)
      else
        let name := path.takeWhile (· ≠ slash)
        match ← getSubPath curr name with
        | none => .ret (none, name)
        | some sub =>
          if name.length < path.length then do
            let (r, _) ← getPathFromRoot fuel sub (path.drop (name.length + 1))
            .ret (r, name)
          else .ret (some sub, name)

/-- `get_path_from_pwd` -/
def getPathFromPwd : (fuel : Nat) → (curr : PathT) → (path : Str) → FsM (Option PathT × Str)
  | 0, _, _ => .fault
  | fuel + 1, curr, path =>
    if path = [] ∨ path = lit "." then .ret (some (pathClone curr), path)
    else if path = lit ".." then .ret (curr.prev.map pathClone, path)
    else if path.take 2 = lit "./" then do
      let (r, rest) ← getPathFromPwd fuel curr (path.drop 2)
      .ret (r, path.take 2 ++ rest)
    else if path.take 3 = lit "../" then
      match curr.prev with
      | none => .ret (none, path)
      | some prev => do
        let (r, rest) ← getPathFromRoot fuel (pathClone prev) (path.drop 3)
        .ret (r, path.take 3 ++ rest)
    else do
      if (← Fs.getState curr.id) ≠ dOccupied then .ret (none, path)
      else getPathFromRoot fuel (pathClone curr) path

/-- `get_path` from the working directory `pwd`; each step takes a character off the path. -/
def getPath (pwd : PathT) (path : Str) : FsM (Option PathT × Str) :=
  match path with
  | [] => getPathFromPwd 2 pwd []
  | c :: rest =>
    if c = slash then do
      let (r, rest') ← getPathFromRoot (rest.length + 1) .root rest
      .ret (r, slash :: rest')
    else getPathFromPwd (path.length + 2) pwd path

/-- The loop of `rm_name` from index `i` down: the returned name and the new `*path`. -/
def rmNameFrom (path : Str) : (i : Nat) → Str × Str
  | 0 => (path, [])
  | i + 1 => if path.getD (i + 1) 0 = slash then (path.drop (i + 2), path.take (i + 1)) else rmNameFrom path i

/-- `rm_name`; on an empty path it returns a pointer before the start of the string. -/
def rmName (path : Str) : Option (Str × Str) :=
  if path = [] then none else some (rmNameFrom path (path.length - 1))

end MiniFs
