import MiniFs.Theorems.Remove
import MiniFs.Theorems.Lookup
import MiniFs.Theorems.AppendFile

/-! # The invariant of the file system

An image says what each directory and each file is. A store is the tree of the image when the directories and files are
linked on the disk as the image says, no zone belongs to two of them, and each entry of a directory is a directory or a
file below it. The invariant says beside that what the texts and sizes of the files are. The commands change an image in
three ways: a directory gets or loses an entry or a file grows (`replace`), a free zone becomes an empty directory or
file (`orphan`), and directories and files vanish (`vanish`). -/

namespace MiniFs
open Interact Memory

/-- A directory with the entries of its dentry and of its chain, or a file with the trees of its pointers. -/
inductive Node where
  | dir (es : List Entry) (rest : List Seg)
  | file (kids : List Kid)

namespace Node

def state : Node → Byte
  | dir .. => dOccupied
  | file _ => iOccupied

def entries : Node → List Entry
  | dir es rest => entriesOf es rest
  | file _ => []

/-- The zones beside the node's own. -/
def own : Node → List Int
  | dir _ rest => rest.map Prod.fst
  | file kids => kids.flatMap (·.2.ids)

/-- The zones of the node are linked on the disk, whatever its data zones hold. -/
def Placed (s : Store) (id : Int) : Node → Prop
  | dir es rest => Chain s.zones dentry id es rest
  | file kids => FileZones s.zones id kids

/-- The node is on the disk at zone `id`. -/
def Rep (s : Store) (id : Int) : Node → Prop
  | dir es rest => Chain s.zones dentry id es rest
  | file kids => FileRep s id kids ∧ (s.zones id).size = 1 + (kids.flatMap (·.2.ids)).length

end Node

/-- The directories and files by their zones, and a rank of each that grows from a directory to its entries. -/
structure Image where
  node : Int → Option Node
  rank : Int → Nat

/-- Entry `e` of the directory at zone `d`. -/
structure IsEntry (s : Store) (g : Image) (d : Int) (e : Entry) : Prop where
  node : ∃ c, g.node e.2 = some c
  parent : (s.zones e.2).parent = d
  rank : g.rank d < g.rank e.2
  ne : e.2 ≠ 4

/-- The directories and files of the store are the tree of the image. -/
structure DirTree (s : Store) (g : Image) : Prop where
  root : ∃ n, g.node 4 = some n ∧ n.state = dOccupied
  state : ∀ id n, g.node id = some n → s.state id = some n.state
  node : ∀ id b, s.state id = some b → b = dOccupied ∨ b = iOccupied → ∃ n, g.node id = some n
  placed : ∀ id n, g.node id = some n → n.Placed s id
  own : ∀ id n, g.node id = some n → ∀ z ∈ n.own, s.state z = some fOccupied
  nodup : ∀ id n, g.node id = some n → n.own.Nodup
  apart : ∀ id id' n n' z, g.node id = some n → g.node id' = some n' → z ∈ n.own → z ∈ n'.own → id = id'
  entry : ∀ d n e, g.node d = some n → e ∈ n.entries → IsEntry s g d e
  ids : ∀ d n, g.node d = some n → (n.entries.map Prod.snd).Nodup

/-- The store is the tree of the image, and the texts, the sizes and the times of its nodes are in order. -/
structure Inv (s : Store) (g : Image) : Prop extends DirTree s g where
  rep : ∀ id n, g.node id = some n → n.Rep s id
  time : ∀ id n, g.node id = some n → (s.zones id).time < 2 ^ 63

section
variable {s s' : Store} {g : Image} {id d z : Int} {n n' : Node} {b : Byte}

theorem Node.state_ne (n : Node) : n.state ≠ fOccupied ∧ n.state ≠ unoccupied := by
  have hd : dOccupied ≠ fOccupied ∧ dOccupied ≠ unoccupied := by decide
  have hi : iOccupied ≠ fOccupied ∧ iOccupied ≠ unoccupied := by decide
  cases n with
  | dir es rest => exact hd
  | file kids => exact hi

theorem dOccupied_ne_iOccupied : dOccupied ≠ iOccupied := by decide

theorem Node.eq_dir (h : n.state = dOccupied) : ∃ es rest, n = .dir es rest := by
  cases n with
  | dir es rest => exact ⟨es, rest, rfl⟩
  | file kids => exact absurd h.symm dOccupied_ne_iOccupied

theorem Node.eq_file (h : n.state = iOccupied) : ∃ kids, n = .file kids := by
  cases n with
  | dir es rest => exact absurd h dOccupied_ne_iOccupied
  | file kids => exact ⟨kids, rfl⟩

/-- A node depends on its own zones only. -/
theorem Node.Rep.congr (h : n.Rep s id) (hz : ∀ z ∈ id :: n.own, s'.zones z = s.zones z) (hu : ∀ z ∈ n.own, s'.Used z) :
    n.Rep s' id := by
  have hid : s'.zones id = s.zones id := hz id List.mem_cons_self
  cases n with
  | dir es rest => exact Chain.congr h hid fun z hz' => hz z (List.mem_cons_of_mem _ hz')
  | file kids =>
    obtain ⟨hfile, hsize⟩ := h
    refine ⟨⟨hid ▸ hfile.holds, hfile.levels, fun t ht => ?_, hfile.full, hfile.packed, hfile.nodup, hu, hfile.not_mem⟩,
      hid ▸ hsize⟩
    exact (hfile.rep t ht).congr fun z hz' => hz z (List.mem_cons_of_mem _ (mem_ids_row ht hz'))

theorem Node.Rep.placed (h : n.Rep s id) : n.Placed s id := by
  cases n with
  | dir es rest => exact h
  | file kids => exact h.1.fileZones

theorem Node.Placed.congr (h : n.Placed s id) (hz : ∀ z ∈ id :: n.own, s'.zones z = s.zones z) : n.Placed s' id := by
  cases n with
  | dir es rest => exact Chain.congr h (hz id List.mem_cons_self) fun z hz' => hz z (List.mem_cons_of_mem _ hz')
  | file kids => exact FileZones.congr h hz

theorem Node.Placed.le_own (h : n.Placed s id) : ∀ z ∈ n.own, 4 ≤ z := by
  cases n with
  | dir es rest => exact Chain.le h
  | file kids => exact FileZones.le_of_mem h

namespace DirTree

theorem used (h : DirTree s g) (hn : g.node id = some n) : s.Used id := ⟨_, h.state id n hn, n.state_ne.2⟩

theorem le (h : DirTree s g) (hn : g.node id = some n) : 4 ≤ id := Store.le_of_state (h.state id n hn) n.state_ne.1

theorem lt (h : DirTree s g) (hn : g.node id = some n) : id < 1024 := Store.lt_of_state (h.state id n hn)

theorem used_own (h : DirTree s g) (hn : g.node id = some n) : ∀ z ∈ n.own, s.Used z := fun z hz =>
  ⟨_, h.own id n hn z hz, by decide⟩

/-- A zone of a directory or file is not the zone of another one. -/
theorem ne_own (h : DirTree s g) (hn : g.node id = some n) (hd : g.node d = some n') (hz : z ∈ n'.own) : id ≠ z := by
  rintro rfl
  have hstate := h.state id n hn
  rw [h.own d n' hd id hz] at hstate
  exact n.state_ne.1 (Option.some.inj hstate).symm

theorem node_eq_none (h : DirTree s g) (hs : s.state id = some unoccupied) : g.node id = none := by
  cases hn : g.node id with
  | none => rfl
  | some n =>
    have hstate := h.state id n hn
    rw [hs] at hstate
    exact absurd (Option.some.inj hstate).symm n.state_ne.2

theorem nodup_zones (h : DirTree s g) (hn : g.node id = some n) : (id :: n.own).Nodup :=
  List.nodup_cons.mpr ⟨fun hz => h.ne_own hn hn hz rfl, h.nodup id n hn⟩

theorem dir_of_state (h : DirTree s g) (hs : s.state id = some dOccupied) : ∃ es rest, g.node id = some (.dir es rest) := by
  obtain ⟨n, hn⟩ := h.node id _ hs (Or.inl rfl)
  have hstate := h.state id n hn
  rw [hs] at hstate
  obtain ⟨es, rest, rfl⟩ := Node.eq_dir (Option.some.inj hstate).symm
  exact ⟨es, rest, hn⟩

theorem file_of_state (h : DirTree s g) (hs : s.state id = some iOccupied) : ∃ kids, g.node id = some (.file kids) := by
  obtain ⟨n, hn⟩ := h.node id _ hs (Or.inr rfl)
  have hstate := h.state id n hn
  rw [hs] at hstate
  obtain ⟨kids, rfl⟩ := Node.eq_file (Option.some.inj hstate).symm
  exact ⟨kids, hn⟩

/-- The chain of a directory is no longer than the disk. -/
theorem length_rest (h : DirTree s g) {es : List Entry} {rest : List Seg} (hn : g.node id = some (.dir es rest)) :
    rest.length < zoneFuel := by
  have hle : (Node.dir es rest).own.length ≤ 1024 := length_le_of_used (s := s) (h.nodup id _ hn) fun z hz => by
    have := (h.placed id _ hn).le_own z hz
    exact ⟨by omega, h.used_own hn z hz⟩
  have hlen : (Node.dir es rest).own.length = rest.length := List.length_map _
  unfold zoneFuel
  omega

theorem dirs (h : DirTree s g) : s.Dirs := by
  intro id hs
  obtain ⟨es, rest, hn⟩ := h.dir_of_state hs
  refine ⟨es, Chain.entries (h.placed id _ hn), fun e he => ?_⟩
  obtain ⟨c, hc⟩ := (h.entry id _ e hn (List.mem_append_left _ he)).node
  exact h.lt hc

end DirTree

end

/-! ## A node changes -/

namespace Image

def set (g : Image) (id : Int) (n : Node) : Image := { g with node := fun i => if i = id then some n else g.node i }

def rankAs (g : Image) (id : Int) (k : Nat) : Image := { g with rank := fun i => if i = id then k else g.rank i }

def erase (g : Image) (zs : List Int) : Image := { g with node := fun i => if i ∈ zs then none else g.node i }

section
variable {g : Image} {id i : Int} {n : Node}

@[simp] theorem node_set_self : (g.set id n).node id = some n := if_pos rfl

theorem node_set_of_ne (h : i ≠ id) : (g.set id n).node i = g.node i := if_neg h

theorem node_set_cases {c : Node} (h : (g.set id n).node i = some c) : i = id ∧ c = n ∨ i ≠ id ∧ g.node i = some c := by
  by_cases hi : i = id
  · subst hi
    exact Or.inl ⟨rfl, Option.some.inj (h.symm.trans node_set_self)⟩
  · exact Or.inr ⟨hi, (node_set_of_ne hi).symm.trans h⟩

theorem isSome_set {c : Node} (h : g.node i = some c) : ∃ c, (g.set id n).node i = some c := by
  by_cases hi : i = id
  · exact ⟨n, by rw [hi, node_set_self]⟩
  · exact ⟨c, by rw [node_set_of_ne hi, h]⟩

end

end Image

/-- Node `n` at zone `d` becomes `n'` and takes the zones `new`. -/
structure Replaced (s : Store) (g : Image) (d : Int) (n n' : Node) (new : List Int) (s' : Store) : Prop where
  node : g.node d = some n
  placed : n'.Placed s' d
  state : n'.state = n.state
  takes : s.Takes new s'
  own : n'.own.Perm (n.own ++ new)
  frame : ∀ z, z ≠ d → z ∉ n.own → z ∉ new → s'.zones z = s.zones z
  parent : (s'.zones d).parent = (s.zones d).parent
  entry : ∀ e ∈ n'.entries, IsEntry s g d e
  ids : (n'.entries.map Prod.snd).Nodup

section
variable {s s' : Store} {g : Image} {id d : Int} {n n' : Node} {new zs : List Int}

/-- The zones of the other nodes are untouched. -/
theorem Replaced.keeps (r : Replaced s g d n n' new s') (h : DirTree s g) {i : Int} {c : Node} (hi : i ≠ d)
    (hc : g.node i = some c) : ∀ z ∈ i :: c.own, s'.zones z = s.zones z := by
  intro z hz
  rcases List.mem_cons.mp hz with rfl | hz
  · exact r.frame z hi (fun hz => h.ne_own hc r.node hz rfl) (r.takes.not_mem (h.used hc))
  · refine r.frame z (fun heq => h.ne_own r.node hc hz heq.symm) (fun hz' => hi (h.apart i d c n z hc r.node hz hz')) ?_
    exact r.takes.not_mem (h.used_own hc z hz)

theorem Replaced.mem_own (r : Replaced s g d n n' new s') {z : Int} (hz : z ∈ n'.own) : z ∈ n.own ∨ z ∈ new :=
  List.mem_append.mp (r.own.mem_iff.mp hz)

/-- What the node owns now belongs to no other node. -/
theorem Replaced.apart (r : Replaced s g d n n' new s') (h : DirTree s g) {i z : Int} {c : Node} (hi : i ≠ d)
    (hc : g.node i = some c) (hz : z ∈ c.own) : z ∉ n'.own := by
  intro hz'
  rcases r.mem_own hz' with hz' | hz'
  · exact hi (h.apart i d c n z hc r.node hz hz')
  · exact r.takes.not_mem (h.used_own hc z hz) hz'

theorem Replaced.isEntry (r : Replaced s g d n n' new s') (h : DirTree s g) {i : Int} {e : Entry} (he : IsEntry s g i e) :
    IsEntry s' (g.set d n') i e := by
  obtain ⟨c, hc⟩ := he.node
  refine ⟨Image.isSome_set hc, ?_, he.rank, he.ne⟩
  by_cases hed : e.2 = d
  · rw [hed, r.parent, ← hed]
    exact he.parent
  · rw [r.keeps h hed hc e.2 List.mem_cons_self]
    exact he.parent

theorem Replaced.tree (r : Replaced s g d n n' new s') (h : DirTree s g) : DirTree s' (g.set d n') where
  root := by
    obtain ⟨m, hm, hdir⟩ := h.root
    by_cases h4 : 4 = d
    · subst h4
      rw [r.node] at hm
      cases hm
      exact ⟨n', Image.node_set_self, r.state.trans hdir⟩
    · exact ⟨m, by rw [Image.node_set_of_ne h4, hm], hdir⟩
  state := by
    intro i c hc
    rcases Image.node_set_cases hc with ⟨rfl, rfl⟩ | ⟨-, hc⟩
    · rw [r.takes.keeps (h.used r.node), h.state i n r.node, r.state]
    · rw [r.takes.keeps (h.used hc), h.state i c hc]
  node := by
    intro i b hs hb
    rw [r.takes.state] at hs
    split at hs
    · cases hs
      exact absurd hb (by decide)
    · obtain ⟨c, hc⟩ := h.node i b hs hb
      exact Image.isSome_set hc
  placed := by
    intro i c hc
    rcases Image.node_set_cases hc with ⟨rfl, rfl⟩ | ⟨hi, hc⟩
    · exact r.placed
    · exact (h.placed i c hc).congr (r.keeps h hi hc)
  own := by
    intro i c hc z hz
    rcases Image.node_set_cases hc with ⟨rfl, rfl⟩ | ⟨-, hc⟩
    · rcases r.mem_own hz with hz | hz
      · rw [r.takes.keeps (h.used_own r.node z hz)]
        exact h.own i n r.node z hz
      · rw [r.takes.state, if_pos hz]
    · rw [r.takes.keeps (h.used_own hc z hz)]
      exact h.own i c hc z hz
  nodup := by
    intro i c hc
    rcases Image.node_set_cases hc with ⟨rfl, rfl⟩ | ⟨-, hc⟩
    · exact r.own.nodup_iff.mpr (r.takes.nodup_append (h.nodup i n r.node) (h.used_own r.node))
    · exact h.nodup i c hc
  apart := by
    intro i i' c c' z hc hc' hz hz'
    rcases Image.node_set_cases hc with ⟨rfl, rfl⟩ | ⟨hi, hc₀⟩ <;>
      rcases Image.node_set_cases hc' with ⟨heq, rfl⟩ | ⟨hi', hc₁⟩
    · exact heq.symm
    · exact absurd hz (r.apart h hi' hc₁ hz')
    · exact absurd hz' (r.apart h hi hc₀ hz)
    · exact h.apart i i' c c' z hc₀ hc₁ hz hz'
  entry := by
    intro i c e hc he
    rcases Image.node_set_cases hc with ⟨rfl, rfl⟩ | ⟨-, hc⟩
    · exact r.isEntry h (r.entry e he)
    · exact r.isEntry h (h.entry i c e hc he)
  ids := by
    intro i c hc
    rcases Image.node_set_cases hc with ⟨rfl, rfl⟩ | ⟨-, hc⟩
    · exact r.ids
    · exact h.ids i c hc

theorem Replaced.inv (r : Replaced s g d n n' new s') (h : Inv s g) (hrep : n'.Rep s' d)
    (htime : (s'.zones d).time < 2 ^ 63) : Inv s' (g.set d n') where
  toDirTree := r.tree h.toDirTree
  rep := by
    intro i c hc
    rcases Image.node_set_cases hc with ⟨rfl, rfl⟩ | ⟨hi, hc⟩
    · exact hrep
    · exact (h.rep i c hc).congr (r.keeps h.toDirTree hi hc) fun z hz => r.takes.used (h.used_own hc z hz)
  time := by
    intro i c hc
    rcases Image.node_set_cases hc with ⟨rfl, rfl⟩ | ⟨hi, hc⟩
    · exact htime
    · rw [r.keeps h.toDirTree hi hc i List.mem_cons_self]
      exact h.time i c hc

/-! ## A node appears -/

/-- The free zone `id` becomes the node `n` without entries and zones. -/
structure Orphan (s : Store) (id : Int) (n : Node) (s' : Store) : Prop where
  le : 4 ≤ id
  free : s.state id = some unoccupied
  rep : n.Rep s' id
  entries : n.entries = []
  own : n.own = []
  time : (s'.zones id).time < 2 ^ 63
  state : ∀ z, s'.state z = if z = id then some n.state else s.state z
  frame : ∀ z, z ≠ id → s'.zones z = s.zones z

theorem Orphan.ne (r : Orphan s id n s') (h : DirTree s g) {i : Int} {c : Node} (hc : g.node i = some c) : i ≠ id := by
  rintro rfl
  cases (h.node_eq_none r.free).symm.trans hc

theorem Orphan.ne_own (r : Orphan s id n s') (h : DirTree s g) {i z : Int} {c : Node} (hc : g.node i = some c)
    (hz : z ∈ c.own) : z ≠ id := by
  rintro rfl
  cases r.free.symm.trans (h.own i c hc z hz)

theorem Orphan.keeps (r : Orphan s id n s') {z : Int} (hz : z ≠ id) : s'.state z = s.state z := by
  rw [r.state, if_neg hz]

theorem Orphan.frame_zones (r : Orphan s id n s') (h : DirTree s g) {i : Int} {c : Node} (hi : i ≠ id)
    (hc : g.node i = some c) : ∀ z ∈ i :: c.own, s'.zones z = s.zones z := by
  intro z hz
  refine r.frame z ?_
  rcases List.mem_cons.mp hz with rfl | hz
  · exact hi
  · exact r.ne_own h hc hz

theorem Orphan.tree (r : Orphan s id n s') (h : DirTree s g) (k : Nat) : DirTree s' ((g.set id n).rankAs id k) where
  root := by
    obtain ⟨m, hm, hdir⟩ := h.root
    exact ⟨m, (Image.node_set_of_ne (r.ne h hm)).trans hm, hdir⟩
  state := by
    intro i c hc
    rcases Image.node_set_cases hc with ⟨rfl, rfl⟩ | ⟨hi, hc⟩
    · rw [r.state, if_pos rfl]
    · rw [r.keeps hi, h.state i c hc]
  node := by
    intro i b hs hb
    by_cases hi : i = id
    · exact ⟨n, hi ▸ Image.node_set_self⟩
    · rw [r.keeps hi] at hs
      obtain ⟨c, hc⟩ := h.node i b hs hb
      exact ⟨c, (Image.node_set_of_ne hi).trans hc⟩
  placed := by
    intro i c hc
    rcases Image.node_set_cases hc with ⟨rfl, rfl⟩ | ⟨hi, hc⟩
    · exact r.rep.placed
    · exact (h.placed i c hc).congr (r.frame_zones h hi hc)
  own := by
    intro i c hc z hz
    rcases Image.node_set_cases hc with ⟨rfl, rfl⟩ | ⟨-, hc⟩
    · rw [r.own] at hz
      cases hz
    · rw [r.keeps (r.ne_own h hc hz)]
      exact h.own i c hc z hz
  nodup := by
    intro i c hc
    rcases Image.node_set_cases hc with ⟨rfl, rfl⟩ | ⟨-, hc⟩
    · rw [r.own]
      exact List.nodup_nil
    · exact h.nodup i c hc
  apart := by
    intro i i' c c' z hc hc' hz hz'
    rcases Image.node_set_cases hc with ⟨rfl, rfl⟩ | ⟨-, hc⟩
    · rw [r.own] at hz
      cases hz
    rcases Image.node_set_cases hc' with ⟨rfl, rfl⟩ | ⟨-, hc'⟩
    · rw [r.own] at hz'
      cases hz'
    · exact h.apart i i' c c' z hc hc' hz hz'
  entry := by
    intro i c e hc he
    rcases Image.node_set_cases hc with ⟨rfl, rfl⟩ | ⟨hi, hc⟩
    · rw [r.entries] at he
      cases he
    · have hold := h.entry i c e hc he
      obtain ⟨m, hm⟩ := hold.node
      have hed := r.ne h hm
      refine ⟨⟨m, (Image.node_set_of_ne hed).trans hm⟩, ?_, ?_, hold.ne⟩
      · rw [r.frame _ hed]
        exact hold.parent
      · show (if i = id then k else g.rank i) < if e.2 = id then k else g.rank e.2
        rw [if_neg hi, if_neg hed]
        exact hold.rank
  ids := by
    intro i c hc
    rcases Image.node_set_cases hc with ⟨rfl, rfl⟩ | ⟨-, hc⟩
    · rw [r.entries]
      exact List.nodup_nil
    · exact h.ids i c hc

theorem Orphan.inv (r : Orphan s id n s') (h : Inv s g) (k : Nat) : Inv s' ((g.set id n).rankAs id k) where
  toDirTree := r.tree h.toDirTree k
  rep := by
    intro i c hc
    rcases Image.node_set_cases hc with ⟨rfl, rfl⟩ | ⟨hi, hc⟩
    · exact r.rep
    · refine (h.rep i c hc).congr (r.frame_zones h.toDirTree hi hc) fun z hz => ?_
      exact ⟨_, (r.keeps (r.ne_own h.toDirTree hc hz)).trans (h.own i c hc z hz), by decide⟩
  time := by
    intro i c hc
    rcases Image.node_set_cases hc with ⟨rfl, rfl⟩ | ⟨hi, hc⟩
    · exact r.time
    · rw [r.frame i hi]
      exact h.time i c hc

/-! ## Nodes vanish -/

/-- The zones `zs` become free: with a node's zone its own ones may stay in use, but not the other way round. -/
structure Vanish (s : Store) (g : Image) (zs : List Int) (s' : Store) : Prop where
  frees : s.Frees zs s'
  root : (4 : Int) ∉ zs
  own : ∀ i n z, g.node i = some n → z ∈ n.own → z ∈ zs → i ∈ zs
  entry : ∀ d n e, g.node d = some n → e ∈ n.entries → e.2 ∈ zs → d ∈ zs

theorem Image.node_erase_cases {i : Int} {c : Node} (h : (g.erase zs).node i = some c) : i ∉ zs ∧ g.node i = some c := by
  by_cases hi : i ∈ zs
  · exact absurd ((if_pos hi).symm.trans h) nofun
  · exact ⟨hi, (if_neg hi).symm.trans h⟩

theorem Image.node_erase {i : Int} {c : Node} (hi : i ∉ zs) (hc : g.node i = some c) : (g.erase zs).node i = some c :=
  (if_neg hi).trans hc

theorem Vanish.keeps (r : Vanish s g zs s') {z : Int} (hz : z ∉ zs) : s'.state z = s.state z := by
  rw [r.frees.state, if_neg hz]

theorem Vanish.not_own (r : Vanish s g zs s') {i z : Int} {c : Node} (hi : i ∉ zs) (hc : g.node i = some c)
    (hz : z ∈ c.own) : z ∉ zs :=
  fun hin => hi (r.own i c z hc hz hin)

theorem Vanish.tree (r : Vanish s g zs s') (h : DirTree s g) : DirTree s' (g.erase zs) where
  root := by
    obtain ⟨m, hm, hdir⟩ := h.root
    exact ⟨m, Image.node_erase r.root hm, hdir⟩
  state := by
    intro i c hc
    obtain ⟨hi, hc⟩ := Image.node_erase_cases hc
    rw [r.keeps hi, h.state i c hc]
  node := by
    intro i b hs hb
    by_cases hi : i ∈ zs
    · rw [r.frees.state, if_pos hi] at hs
      cases hs
      exact absurd hb (by decide)
    · rw [r.keeps hi] at hs
      obtain ⟨c, hc⟩ := h.node i b hs hb
      exact ⟨c, Image.node_erase hi hc⟩
  placed := fun i c hc => (h.placed i c (Image.node_erase_cases hc).2).congr fun z _ => by rw [r.frees.zones]
  own := by
    intro i c hc z hz
    obtain ⟨hi, hc⟩ := Image.node_erase_cases hc
    rw [r.keeps (r.not_own hi hc hz)]
    exact h.own i c hc z hz
  nodup := fun i c hc => h.nodup i c (Image.node_erase_cases hc).2
  apart := fun i i' c c' z hc hc' => h.apart i i' c c' z (Image.node_erase_cases hc).2 (Image.node_erase_cases hc').2
  entry := by
    intro i c e hc he
    obtain ⟨hi, hc⟩ := Image.node_erase_cases hc
    have hold := h.entry i c e hc he
    obtain ⟨m, hm⟩ := hold.node
    refine ⟨⟨m, Image.node_erase (fun hin => hi (r.entry i c e hc he hin)) hm⟩, ?_, hold.rank, hold.ne⟩
    rw [r.frees.zones]
    exact hold.parent
  ids := fun i c hc => h.ids i c (Image.node_erase_cases hc).2

theorem Vanish.inv (r : Vanish s g zs s') (h : Inv s g) : Inv s' (g.erase zs) where
  toDirTree := r.tree h.toDirTree
  rep := by
    intro i c hc
    obtain ⟨hi, hc⟩ := Image.node_erase_cases hc
    refine (h.rep i c hc).congr (fun z _ => by rw [r.frees.zones]) fun z hz => ?_
    exact ⟨_, (r.keeps (r.not_own hi hc hz)).trans (h.own i c hc z hz), by decide⟩
  time := by
    intro i c hc
    rw [r.frees.zones]
    exact h.time i c (Image.node_erase_cases hc).2

end

end MiniFs
