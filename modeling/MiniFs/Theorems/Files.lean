import MiniFs.Client
import MiniFs.Theorems.Lookup

/-! # What the file system is for

Directories, which list names, and files, which hold a text: no zones, no bitmap, no pointers and no connection. A line
that the user types changes them and prints something. Of the disk are left only the numbers by which the objects are
known, the four entries among which a name is looked up, and the size of a name. -/

namespace MiniFs
open Interact Memory

/-- A directory with its entries, or a file with its text. -/
inductive Obj where
  | dir (es : List Entry)
  | file (text : Str)
deriving DecidableEq

/-- The objects that are an object's entries. -/
def Obj.ids : Obj → List Int
  | .dir es => es.map Prod.snd
  | .file _ => []

/-- The objects by their numbers. -/
abbrev Files := Int → Option Obj

namespace Files

/-- An empty root. -/
def start : Files := fun id => if id = 4 then some (.dir []) else none

/-! ## Paths -/

/-- Where `path` leads from `curr`, and how much of it has been looked at. -/
def walk (f : Files) : (fuel : Nat) → (curr : PathT) → (path : Str) → Option PathT × Str
  | 0, _, path => (none, path)
  | fuel + 1, curr, path =>
    if path = [] ∨ path = lit "." then (some curr, path)
    else if path = lit ".." then (curr.prev, path)
    else if path.take 2 = lit "./" then
      let r := f.walk fuel curr (path.drop 2)
      (r.1, path.take 2 ++ r.2)
    else if path.take 3 = lit "../" then
      match curr.prev with
      | none => (none, path)
      | some prev =>
        let r := f.walk fuel prev (path.drop 3)
        (r.1, path.take 3 ++ r.2)
    else
      match f curr.id with
      | some (.dir es) =>
        let name := path.takeWhile (· ≠ slash)
        match lookupEntries (es.take 4) name with
        | none => (none, name)
        | some id =>
          if name.length < path.length then ((f.walk fuel (.node id curr) (path.drop (name.length + 1))).1, name)
          else (some (.node id curr), name)
      | _ => (none, path)

def lookup (f : Files) (pwd : PathT) (path : Str) : Option PathT × Str :=
  match path with
  | [] => (some pwd, [])
  | c :: rest =>
    if c = slash then
      let r := f.walk (rest.length + 1) .root rest
      (r.1, slash :: r.2)
    else f.walk (path.length + 1) pwd path

/-- The directory, its entries and the name that a path to nothing gives to something new. -/
def insertion (f : Files) (pwd : PathT) (path : Str) : Option (Int × List Entry × Str) :=
  match f.lookup pwd path with
  | (some _, _) => none
  | (none, cut) =>
    match rmName cut with
    | none => none
    | some (name, rest) =>
      match (f.lookup pwd rest).1 with
      | none => none
      | some p =>
        match f p.id with
        | some (.dir es) => some (p.id, es, name)
        | _ => none

/-! ## Changes -/

def set (f : Files) (id : Int) (o : Obj) : Files := fun i => if i = id then some o else f i

/-- Directory `d` with the entries `es` gets the entry `e` for the object `o`. -/
def link (f : Files) (d : Int) (es : List Entry) (e : Entry) (o : Obj) : Files := (f.set e.2 o).set d (.dir (es ++ [e]))

/-- Directory `d` is left with the entries `es`, and the objects `ids` are gone. -/
def unlink (f : Files) (d : Int) (es : List Entry) (ids : List Int) : Files := fun i =>
  if i ∈ ids then none else f.set d (.dir es) i

/-- `touch`, `mkdir` and the making of a file by `write`: whether it succeeds, and what there is then. -/
inductive Makes (f : Files) (pwd : PathT) (path : Str) (o : Obj) : Bool → Files → Prop where
  | fails (h : f.insertion pwd path = none) : Makes f pwd path o false f
  | makes {d : Int} {es : List Entry} {name : Str} {id : Int} (h : f.insertion pwd path = some (d, es, name))
      (free : f id = none) (le : 4 < id) (lt : id < 1024) : Makes f pwd path o true (f.link d es (name, id) o)

/-- `rm` and `rmdir`: the last entry of the directory takes the place of the removed one. -/
inductive Removes (f : Files) (pwd : PathT) (path : Str) : Bool → Files → Prop where
  | fails (h : ∀ p, (f.lookup pwd path).1 = some p → f p.id = none) : Removes f pwd path false f
  | removes {p : PathT} {o : Obj} {d : Int} {es : List Entry} {i : Nat} {name : Str} (h : (f.lookup pwd path).1 = some p)
      (obj : f p.id = some o) (dir : f d = some (.dir es)) (entry : es[i]? = some (name, p.id)) :
      Removes f pwd path true (f.unlink d (swapRemove es i) (p.id :: o.ids))

inductive Appends (f : Files) (pwd : PathT) (path str : Str) : Bool → Files → Prop where
  | fails (h : ∀ p text, (f.lookup pwd path).1 = some p → f p.id ≠ some (.file text)) : Appends f pwd path str false f
  | appends {p : PathT} {text : Str} (h : (f.lookup pwd path).1 = some p) (file : f p.id = some (.file text)) :
      Appends f pwd path str true (f.set p.id (.file (text ++ str)))

/-- The end of `write`: a new file, and the data at what `cut` leads to then. -/
inductive Renews (f : Files) (pwd : PathT) (path cut str : Str) : Bool → Files → Prop where
  | fails {f' : Files} (h : f.Makes pwd path (.file []) false f') : Renews f pwd path cut str false f'
  | makes {f₁ f' : Files} {ok : Bool} (h : f.Makes pwd path (.file []) true f₁) (h' : f₁.Appends pwd cut str ok f') :
      Renews f pwd path cut str ok f'

/-- `write`: an old file is removed first. Each step goes on with the path as the one before has cut it. -/
inductive Writes (f : Files) (pwd : PathT) (path str : Str) : Bool → Files → Prop where
  | new {f' : Files} {ok : Bool} (h : (f.lookup pwd path).1 = none)
      (h' : f.Renews pwd path (f.lookup pwd path).2 str ok f') : Writes f pwd path str ok f'
  | blocked {p : PathT} (h : (f.lookup pwd path).1 = some p) (no : ∀ text, f p.id ≠ some (.file text)) :
      Writes f pwd path str false f
  | old {p : PathT} {text : Str} {f₁ f' : Files} {ok₁ ok : Bool} (h : (f.lookup pwd path).1 = some p)
      (file : f p.id = some (.file text)) (rm : f.Removes pwd (f.lookup pwd path).2 ok₁ f₁)
      (h' : f₁.Renews pwd path (f.lookup pwd (f.lookup pwd path).2).2 str ok f') : Writes f pwd path str ok f'

/-! ## Lines -/

/-- The words of a command that answers with its success. -/
inductive Does (f : Files) (pwd : PathT) : List Str → Bool → Files → Prop where
  | touch {a : Str} {ok : Bool} {f' : Files} (short : a.length ≤ 9) (h : f.Makes pwd a (.file []) ok f') :
      Does f pwd [lit "touch", a] ok f'
  | mkdir {a : Str} {ok : Bool} {f' : Files} (short : a.length ≤ 9) (h : f.Makes pwd a (.dir []) ok f') :
      Does f pwd [lit "mkdir", a] ok f'
  | long {t a : Str} (ht : t = lit "touch" ∨ t = lit "mkdir") (long : 9 < a.length) : Does f pwd [t, a] false f
  | rm {a : Str} {ok : Bool} {f' : Files} (h : f.Removes pwd a ok f') : Does f pwd [lit "rm", a] ok f'
  | rmdir {a : Str} {ok : Bool} {f' : Files} (h : f.Removes pwd a ok f') : Does f pwd [lit "rmdir", a] ok f'
  | write {a b : Str} {ok : Bool} {f' : Files} (h : f.Writes pwd a b ok f') : Does f pwd [lit "write", a, b] ok f'
  | append {a b : Str} {ok : Bool} {f' : Files} (h : f.Appends pwd a b ok f') : Does f pwd [lit "append", a, b] ok f'

/-- `d` for a directory, `-` for a file -/
def kind (f : Files) (id : Int) : Byte :=
  match f id with
  | some (.dir _) => 100
  | _ => 45

/-- A line of a listing: the kind of the object, some attributes, and the name. -/
def IsLine (f : Files) (e : Entry) (line : Str) : Prop := ∃ mid, line = f.kind e.2 :: mid ++ lit "\t" ++ e.1 ++ lit "\n"

/-- What `ls` prints of an object. -/
inductive Lists (f : Files) (id : Int) : List Str → Prop where
  | dir {es : List Entry} {lines : List Str} (dir : f id = some (.dir es)) (each : List.Forall₂ f.IsLine es lines) :
      Lists f id lines
  | file {text : Str} {d : Int} {es : List Entry} {e : Entry} {line : Str} (file : f id = some (.file text))
      (dir : f d = some (.dir es)) (mem : e ∈ es) (entry : e.2 = id) (each : f.IsLine e line) : Lists f id [line]
  | nothing (h : f id = none) : Lists f id []

/-- A request that the server knows. -/
def IsCommand : List Str → Prop
  | [t] => t ∈ [lit "exit", lit "ls"]
  | [t, _] => t ∈ [lit "touch", lit "mkdir", lit "rm", lit "rmdir", lit "ls", lit "cat", lit "cd"]
  | [t, _, _] => t ∈ [lit "write", lit "append"]
  | _ => False

/-- What is printed of a command that answers with its success. -/
def report (line : Str) (ok : Bool) : Str := if ok then [] else line ++ lit ": execution failed.\n"

/-- What a line with certain words does, what is printed before the next prompt, and whether there is one. -/
inductive Answer (f : Files) (pwd : PathT) (line : Str) : List Str → Prompt → Str → Option PathT → Files → Prop where
  | exit : Answer f pwd line [lit "exit"] .stop [] none f
  | unknown {words : List Str} (h : ¬IsCommand words) :
      Answer f pwd line words .again (line ++ lit ": command not found.\n") (some pwd) f
  | does {words : List Str} {ok : Bool} {f' : Files} (h : f.Does pwd words ok f') :
      Answer f pwd line words .again (report line ok) (some pwd) f'
  | cd {a : Str} {p : PathT} {es : List Entry} (h : (f.lookup pwd a).1 = some p) (dir : f p.id = some (.dir es)) :
      Answer f pwd line [lit "cd", a] .again (report line true) (some p) f
  | cdFails {a : Str} (h : ∀ p es, (f.lookup pwd a).1 = some p → f p.id ≠ some (.dir es)) :
      Answer f pwd line [lit "cd", a] .again (report line false) (some pwd) f
  | here {lines : List Str} (h : f.Lists pwd.id lines) :
      Answer f pwd line [lit "ls"] .again (lines.flatten ++ lit "\n") (some pwd) f
  | ls {a : Str} {p : PathT} {lines : List Str} (h : (f.lookup pwd a).1 = some p) (h' : f.Lists p.id lines) :
      Answer f pwd line [lit "ls", a] .again (lines.flatten ++ lit "\n") (some pwd) f
  | lsFails {a : Str} (h : (f.lookup pwd a).1 = none) :
      Answer f pwd line [lit "ls", a] .again (report line false) (some pwd) f
  | cat {a : Str} {p : PathT} {text : Str} (h : (f.lookup pwd a).1 = some p) (file : f p.id = some (.file text)) :
      Answer f pwd line [lit "cat", a] .again (text ++ lit "\n") (some pwd) f
  | catFails {a : Str} (h : ∀ p text, (f.lookup pwd a).1 = some p → f p.id ≠ some (.file text)) :
      Answer f pwd line [lit "cat", a] .again (report line false) (some pwd) f

end Files

end MiniFs
