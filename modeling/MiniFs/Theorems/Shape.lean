import MiniFs.Lib.Rooted
import MiniFs.Theorems.Invariant

/-! # The shape of the file system

The zones that the root leads to, with the slots that refer to them, and what the claim of a tree says about them. A
store that keeps the invariant has that shape: the references inside a directory or a file are listed one by one, and
no zone is listed twice. -/

namespace MiniFs
open Interact Memory

/-- As what a zone is reached: as a directory or file, as a dir_zone in the chain of directory `d`, or as an index
    zone of level `n`, where level 0 is a data zone. -/
inductive Role where
  | node
  | dirZone (d : Int)
  | tree (n : Nat)
  deriving DecidableEq

/-- A zone in its role. -/
abbrev Place := Role × Int

/-- The slot `i` of a place refers to another place: the slots of a directory zone come before `next`. -/
inductive Store.Ref (s : Store) : Place → Nat → Place → Prop where
  | sub {z : Int} {i : Nat} : s.state z = some dOccupied → i < dentry.subs → dentry.subId (s.zones z) i ≠ 0 →
      Ref s (.node, z) i (.node, dentry.subId (s.zones z) i)
  | next {z : Int} : s.state z = some dOccupied → dentry.next (s.zones z) ≠ 0 →
      Ref s (.node, z) dentry.subs (.dirZone z, dentry.next (s.zones z))
  | subCont {d z : Int} {i : Nat} : i < dirZone.subs → dirZone.subId (s.zones z) i ≠ 0 →
      Ref s (.dirZone d, z) i (.node, dirZone.subId (s.zones z) i)
  | nextCont {d z : Int} : dirZone.next (s.zones z) ≠ 0 →
      Ref s (.dirZone d, z) dirZone.subs (.dirZone d, dirZone.next (s.zones z))
  | ptr {z : Int} {i : Nat} : s.state z = some iOccupied → i < 24 → (s.zones z).ptr i ≠ 0 →
      Ref s (.node, z) i (.tree (ptrLevel i), (s.zones z).ptr i)
  | idx {n : Nat} {z : Int} {i : Nat} : i < 32 → (s.zones z).idx i ≠ 0 →
      Ref s (.tree (n + 1), z) i (.tree n, (s.zones z).idx i)

/-- The root directory. -/
def rootPlace : Place := (.node, 4)

/-- The directory that lists what a place of a directory refers to. -/
def Place.lister : Place → Int
  | (.dirZone d, _) => d
  | (_, z) => z

/-- The zones form a tree rooted at zone 4. -/
structure Shape (s : Store) : Prop where
  root : s.state 4 = some dOccupied
  entry : ∀ x i id, Found s.Ref rootPlace x → s.Ref x i (.node, id) → 4 ≤ id ∧
    (s.state id = some dOccupied ∨ s.state id = some iOccupied) ∧ (s.zones id).parent = x.lister
  inner : ∀ x i k z, Found s.Ref rootPlace x → s.Ref x i (k, z) → k ≠ .node → 4 ≤ z ∧ s.state z = some fOccupied
  unique : ∀ x y i j k k' z, Found s.Ref rootPlace x → Found s.Ref rootPlace y → s.Ref x i (k, z) → s.Ref y j (k', z) →
    x = y ∧ i = j ∧ k = k'
  unreferenced : ∀ x i k, Found s.Ref rootPlace x → ¬s.Ref x i (k, 4)
  acyclic : ∀ x, Found s.Ref rootPlace x → ¬Relation.TransGen (Refers s.Ref) x x

/-! ## The references of a node -/

/-- A reference: the place, the slot and the place referred to. -/
abbrev Edge := Place × Nat × Place

/-- The references from the used slots of a place. -/
def slotEdges (x : Place) (targets : List Place) : List Edge := targets.zipIdx.map fun p => (x, p.2, p.1)

def chainEdges (d : Int) (L : Layout) (x : Place) (es : List Entry) : List Seg → List Edge
  | [] => slotEdges x (es.map fun e => (.node, e.2))
  | seg :: rest => slotEdges x (es.map fun e => (.node, e.2)) ++
      (x, L.subs, (.dirZone d, seg.1)) :: chainEdges d dirZone (.dirZone d, seg.1) seg.2 rest

def treeEdges : {n : Nat} → FileTree n → List Edge
  | 0, _ => []
  | n + 1, (id, kids) => slotEdges (.tree (n + 1), id) (kids.map fun t => (.tree n, t.id)) ++ kids.flatMap treeEdges

def fileEdges (id : Int) (kids : List Kid) : List Edge :=
  slotEdges (.node, id) (kids.map fun t => (.tree t.1, t.2.id)) ++ kids.flatMap fun t => treeEdges t.2

def Node.edges (id : Int) : Node → List Edge
  | .dir es rest => chainEdges id dentry (.node, id) es rest
  | .file kids => fileEdges id kids

/-- The zone that a reference leads to. -/
def Edge.target (e : Edge) : Int := e.2.2.2

section
variable {s : Store} {x y : Place} {i : Nat} {targets : List Place}

theorem mem_slotEdges {w : Place} : (y, i, w) ∈ slotEdges x targets ↔ y = x ∧ ∃ h : i < targets.length, targets[i] = w := by
  unfold slotEdges
  rw [List.mem_map]
  constructor
  · rintro ⟨⟨t, j⟩, hmem, heq⟩
    obtain ⟨rfl, rfl, rfl⟩ : x = y ∧ j = i ∧ t = w := by simpa using heq
    have := List.mem_zipIdx hmem
    exact ⟨rfl, by omega, by simpa using this.2.2.symm⟩
  · rintro ⟨rfl, hi, rfl⟩
    exact ⟨(targets[i], i), List.mk_mem_zipIdx_iff_getElem?.mpr (List.getElem?_eq_getElem hi), rfl⟩

theorem map_target_slotEdges : (slotEdges x targets).map Edge.target = targets.map Prod.snd := by
  unfold slotEdges
  rw [List.map_map]
  have hcomp : (Edge.target ∘ fun p : Place × Nat => ((x, p.2, p.1) : Edge)) = Prod.snd ∘ Prod.fst := rfl
  rw [hcomp, ← List.map_map, List.zipIdx_map_fst]

end

/-! ### Each zone once -/

section
variable {d id : Int} {L : Layout} {x : Place} {es : List Entry} {rest : List Seg} {kids : List Kid}

theorem perm_chainEdges : ((chainEdges d L x es rest).map Edge.target).Perm
    ((entriesOf es rest).map Prod.snd ++ rest.map Prod.fst) := by
  have hslots : ∀ (y : Place) (es : List Entry),
      (slotEdges y (es.map fun e => (.node, e.2))).map Edge.target = es.map Prod.snd := fun y es => by
    rw [map_target_slotEdges, List.map_map]
    rfl
  induction rest generalizing L x es with
  | nil =>
    rw [chainEdges, hslots]
    simp [entriesOf]
  | cons seg rest ih =>
    have hsplit : entriesOf es (seg :: rest) = es ++ entriesOf seg.2 rest := rfl
    rw [chainEdges, List.map_append, hslots, List.map_cons, hsplit, List.map_append, List.append_assoc, List.map_cons]
    exact ((ih.cons _).trans List.perm_middle.symm).append_left _

theorem perm_treeEdges {n : Nat} (t : FileTree n) : (t.id :: (treeEdges t).map Edge.target).Perm t.ids := by
  induction n with
  | zero => exact List.Perm.refl _
  | succ n ih =>
    obtain ⟨id, kids⟩ := t
    refine List.Perm.cons _ ?_
    show ((slotEdges (.tree (n + 1), id) (kids.map fun t => (.tree n, t.id)) ++ kids.flatMap treeEdges).map
      Edge.target).Perm _
    rw [List.map_append, map_target_slotEdges, List.map_map, List.map_flatMap]
    exact (List.map_append_flatMap_perm _ _ _).trans (List.Perm.flatMap_left _ fun t _ => ih t)

theorem perm_fileEdges : ((fileEdges id kids).map Edge.target).Perm (kids.flatMap (·.2.ids)) := by
  unfold fileEdges
  rw [List.map_append, map_target_slotEdges, List.map_map, List.map_flatMap]
  exact (List.map_append_flatMap_perm _ _ _).trans (List.Perm.flatMap_left _ fun t _ => perm_treeEdges t.2)

theorem Node.perm_edges (n : Node) : ((n.edges id).map Edge.target).Perm (n.entries.map Prod.snd ++ n.own) := by
  cases n with
  | dir es rest => exact perm_chainEdges
  | file kids => exact perm_fileEdges

end

/-! ### Every reference is listed -/

/-- What a zone of a directory refers to. -/
def DirRef (zones : Int → Zone) (d : Int) (L : Layout) (z : Int) (j : Nat) (w : Place) : Prop :=
  j < L.subs ∧ L.subId (zones z) j ≠ 0 ∧ w = (.node, L.subId (zones z) j) ∨
    L.next (zones z) ≠ 0 ∧ j = L.subs ∧ w = (.dirZone d, L.next (zones z))

section
variable {s : Store} {d id z : Int} {L : Layout} {x y w : Place} {es : List Entry} {rest : List Seg} {kids : List Kid}
  {i j : Nat}

theorem dirRef_mem (h : Chain s.zones L z es rest) (hr : DirRef s.zones d L z j w) :
    (x, j, w) ∈ chainEdges d L x es rest := by
  have hslot : j < L.subs → L.subId (s.zones z) j ≠ 0 → w = (.node, L.subId (s.zones z) j) →
      (x, j, w) ∈ slotEdges x (es.map fun e => (.node, e.2)) := by
    rintro hj hne rfl
    rw [ne_eq, h.entries.subId_eq_zero hj] at hne
    have hlt : j < es.length := by omega
    refine mem_slotEdges.mpr ⟨rfl, by simpa using hlt, ?_⟩
    rw [List.getElem_map, (h.entries.get hlt).1]
  cases rest with
  | nil =>
    rcases hr with ⟨hj, hne, hw⟩ | ⟨hne, -, -⟩
    · exact hslot hj hne hw
    · exact absurd h.2 hne
  | cons seg rest =>
    rcases hr with ⟨hj, hne, hw⟩ | ⟨-, rfl, rfl⟩
    · exact List.mem_append_left _ (hslot hj hne hw)
    · rw [h.2.2.1]
      exact List.mem_append_right _ List.mem_cons_self

theorem dirRef_mem_rest {d' : Int} (h : Chain s.zones L z es rest)
    (hy : (y, i, (Role.dirZone d', id)) ∈ chainEdges d L x es rest) (hr : DirRef s.zones d' dirZone id j w) :
    ((.dirZone d', id), j, w) ∈ chainEdges d L x es rest := by
  have hno : ∀ (x : Place) (es : List Entry), (y, i, ((Role.dirZone d', id) : Place)) ∉ slotEdges x
    (es.map fun e => (.node, e.2)) := by
    intro x es hin
    obtain ⟨-, hi, heq⟩ := mem_slotEdges.mp hin
    rw [List.getElem_map] at heq
    cases heq
  induction rest generalizing L z x es with
  | nil => exact absurd hy (hno x es)
  | cons seg rest ih =>
    refine List.mem_append_right _ (List.mem_cons_of_mem _ ?_)
    rcases List.mem_append.mp hy with hy | hy
    · exact absurd hy (hno x es)
    rcases List.mem_cons.mp hy with heq | hy
    · obtain ⟨-, -, heq⟩ : y = x ∧ i = L.subs ∧ ((Role.dirZone d', id) : Place) = (.dirZone d, seg.1) := by simpa using heq
      cases heq
      exact dirRef_mem h.2.2.2.2 hr
    · exact ih h.2.2.2.2 hy

theorem chainEdges_spec (hy : (y, i, w) ∈ chainEdges d L x es rest) : (y = x ∨ y.1 = .dirZone d) ∧
    ((∃ e ∈ entriesOf es rest, w = (.node, e.2)) ∨ ∃ z ∈ rest.map Prod.fst, w = (.dirZone d, z)) := by
  have hslot : ∀ (x : Place) (es : List Entry), (y, i, w) ∈ slotEdges x (es.map fun e => (.node, e.2)) →
      y = x ∧ ∃ e ∈ es, w = (.node, e.2) := by
    intro x es hin
    obtain ⟨hy, hi, heq⟩ := mem_slotEdges.mp hin
    rw [List.getElem_map] at heq
    exact ⟨hy, _, List.getElem_mem (by simpa using hi), heq.symm⟩
  induction rest generalizing L x es with
  | nil =>
    obtain ⟨rfl, e, he, rfl⟩ := hslot x es hy
    exact ⟨Or.inl rfl, Or.inl ⟨e, List.mem_append_left _ he, rfl⟩⟩
  | cons seg rest ih =>
    rcases List.mem_append.mp hy with hy | hy
    · obtain ⟨rfl, e, he, rfl⟩ := hslot x es hy
      exact ⟨Or.inl rfl, Or.inl ⟨e, List.mem_append_left _ he, rfl⟩⟩
    rcases List.mem_cons.mp hy with heq | hy
    · obtain ⟨rfl, -, rfl⟩ : y = x ∧ i = L.subs ∧ w = (.dirZone d, seg.1) := by simpa using heq
      exact ⟨Or.inl rfl, Or.inr ⟨seg.1, List.mem_cons_self, rfl⟩⟩
    · obtain ⟨hy', hw⟩ := ih hy
      refine ⟨Or.inr (hy'.elim (fun h => h ▸ rfl) id), hw.imp ?_ ?_⟩
      · rintro ⟨e, he, rfl⟩
        exact ⟨e, List.mem_append_right _ he, rfl⟩
      · rintro ⟨z, hz, rfl⟩
        exact ⟨z, List.mem_cons_of_mem _ hz, rfl⟩

theorem idx_mem {n : Nat} {t : FileTree n} (h : t.Rep s.zones) (hr : s.Ref (.tree n, t.id) j w) :
    ((.tree n, t.id), j, w) ∈ treeEdges t := by
  cases n with
  | zero => cases hr
  | succ n =>
    obtain ⟨id, kids⟩ := t
    have hid : FileTree.id (n := n + 1) (id, kids) = id := rfl
    rw [hid] at hr ⊢
    cases hr with
    | idx hj hne =>
      have hlt : j < (kids.map FileTree.id).length := by
        by_contra hge
        exact hne (h.2.1.free j (by omega) hj)
      refine List.mem_append_left _ (mem_slotEdges.mpr ⟨rfl, by simpa using hlt, ?_⟩)
      rw [h.2.1.used j hlt, List.getElem_map, List.getElem_map]

theorem tree_mem_rest {n m : Nat} {t : FileTree n} (h : t.Rep s.zones) (hy : (y, i, (Role.tree m, id)) ∈ treeEdges t)
    (hr : s.Ref (.tree m, id) j w) : ((.tree m, id), j, w) ∈ treeEdges t := by
  induction n with
  | zero => cases hy
  | succ n ih =>
    obtain ⟨z, kids⟩ := t
    refine List.mem_append_right _ (List.mem_flatMap.mpr ?_)
    rcases List.mem_append.mp hy with hy | hy
    · obtain ⟨-, hi, heq⟩ := mem_slotEdges.mp hy
      rw [List.getElem_map] at heq
      have hlt : i < kids.length := by simpa using hi
      have hk : kids[i] ∈ kids := List.getElem_mem _
      generalize kids[i] = k at heq hk
      obtain ⟨hm, hid⟩ := Prod.mk.inj heq
      cases hm
      subst hid
      exact ⟨k, hk, idx_mem (h.2.2 k hk) hr⟩
    · obtain ⟨k, hk, hy⟩ := List.mem_flatMap.mp hy
      exact ⟨k, hk, ih (h.2.2 k hk) hy⟩

theorem treeEdges_role {n : Nat} {t : FileTree n} (hy : (y, i, w) ∈ treeEdges t) : ∃ m, w.1 = .tree m := by
  induction n with
  | zero => cases hy
  | succ n ih =>
    obtain ⟨z, kids⟩ := t
    rcases List.mem_append.mp hy with hy | hy
    · obtain ⟨-, hi, rfl⟩ := mem_slotEdges.mp hy
      rw [List.getElem_map]
      exact ⟨n, rfl⟩
    · obtain ⟨k, hk, hy⟩ := List.mem_flatMap.mp hy
      exact ih hy

theorem fileEdges_role (hy : (y, i, w) ∈ fileEdges id kids) : ∃ m, w.1 = .tree m := by
  rcases List.mem_append.mp hy with hy | hy
  · obtain ⟨-, hi, rfl⟩ := mem_slotEdges.mp hy
    rw [List.getElem_map]
    exact ⟨_, rfl⟩
  · obtain ⟨t, -, hy⟩ := List.mem_flatMap.mp hy
    exact treeEdges_role hy

theorem ptr_mem (h : FileRep s id kids) (hj : j < 24) (hne : (s.zones id).ptr j ≠ 0) :
    (((.node, id) : Place), j, ((.tree (ptrLevel j), (s.zones id).ptr j) : Place)) ∈ fileEdges id kids := by
  have hlt : j < kids.length := by
    by_contra hge
    exact hne (h.holds.free j (by rw [List.length_map]; omega) hj)
  have hlevel : kids[j].1 = ptrLevel j := by
    have hget := congrArg (fun l : List Nat => l[j]?) h.levels
    simpa [hlt] using hget
  refine List.mem_append_left _ (mem_slotEdges.mpr ⟨rfl, by simpa using hlt, ?_⟩)
  rw [List.getElem_map]
  exact Prod.ext (congrArg Role.tree hlevel) (by rw [h.holds.used j (by simpa using hlt), List.getElem_map])

theorem file_mem_rest {m : Nat} (h : ∀ t ∈ kids, t.2.Rep s.zones) {u : Int}
    (hy : (y, i, (Role.tree m, u)) ∈ fileEdges id kids) (hr : s.Ref (.tree m, u) j w) :
    ((.tree m, u), j, w) ∈ fileEdges id kids := by
  refine List.mem_append_right _ (List.mem_flatMap.mpr ?_)
  rcases List.mem_append.mp hy with hy | hy
  · obtain ⟨-, hi, heq⟩ := mem_slotEdges.mp hy
    rw [List.getElem_map] at heq
    have hlt : i < kids.length := by simpa using hi
    have hk : kids[i] ∈ kids := List.getElem_mem _
    generalize kids[i] = k at heq hk
    obtain ⟨hm, hid⟩ := Prod.mk.inj heq
    cases hm
    subst hid
    exact ⟨k, hk, idx_mem (h k hk) hr⟩
  · obtain ⟨k, hk, hy⟩ := List.mem_flatMap.mp hy
    exact ⟨k, hk, tree_mem_rest (h k hk) hy hr⟩

end

/-! ## The invariant has the shape -/

/-- A place of the image: a directory or file, or what one of them refers to inside. -/
def Image.Has (g : Image) (x : Place) : Prop :=
  (x.1 = .node ∧ ∃ n, g.node x.2 = some n) ∨
    x.1 ≠ .node ∧ ∃ id n y i, g.node id = some n ∧ (y, i, x) ∈ n.edges id

section
variable {s : Store} {g : Image} {id : Int} {n : Node} {x w : Place} {i j : Nat}

/-- What a reference of a node leads to. -/
theorem Node.edges_spec (h : (x, i, w) ∈ n.edges id) : x.lister = id ∧ (∃ e ∈ n.entries, w = (.node, e.2)) ∨
    w.1 ≠ .node ∧ w.2 ∈ n.own := by
  have hmem : Edge.target (x, i, w) ∈ n.entries.map Prod.snd ++ n.own := n.perm_edges.mem_iff.mp (List.mem_map_of_mem h)
  cases n with
  | dir es rest =>
    obtain ⟨hx, ⟨e, he, rfl⟩ | ⟨z, hz, rfl⟩⟩ := chainEdges_spec h
    · refine Or.inl ⟨?_, e, he, rfl⟩
      rcases hx with rfl | hx
      · rfl
      · obtain ⟨k, z⟩ := x
        cases hx
        rfl
    · exact Or.inr ⟨nofun, hz⟩
  | file kids =>
    obtain ⟨m, hm⟩ := fileEdges_role h
    exact Or.inr ⟨by rw [hm]; exact nofun, hmem⟩

theorem Inv.ref_mem (h : Inv s g) (hx : g.Has x) (hr : s.Ref x j w) : ∃ id n, g.node id = some n ∧
    (x, j, w) ∈ n.edges id := by
  rcases hx with ⟨hk, n, hn⟩ | ⟨hk, id, n, y, i, hn, hy⟩
  · obtain ⟨k, z⟩ := x
    cases hk
    have hrep := h.rep z n hn
    have hstate := h.state z n hn
    refine ⟨z, n, hn, ?_⟩
    cases n with
    | dir es rest =>
      cases hr with
      | sub hs hi hne => exact dirRef_mem hrep (Or.inl ⟨hi, hne, rfl⟩)
      | next hs hne => exact dirRef_mem hrep (Or.inr ⟨hne, rfl, rfl⟩)
      | ptr hs hi hne =>
        rw [hstate] at hs
        exact absurd (Option.some.inj hs) dOccupied_ne_iOccupied
    | file kids =>
      cases hr with
      | sub hs hi hne =>
        rw [hstate] at hs
        exact absurd (Option.some.inj hs).symm dOccupied_ne_iOccupied
      | next hs hne =>
        rw [hstate] at hs
        exact absurd (Option.some.inj hs).symm dOccupied_ne_iOccupied
      | ptr hs hi hne => exact ptr_mem hrep.1 hi hne
  · refine ⟨id, n, hn, ?_⟩
    have hrep := h.rep id n hn
    cases n with
    | dir es rest =>
      obtain ⟨-, ⟨e, -, rfl⟩ | ⟨z, -, rfl⟩⟩ := chainEdges_spec hy
      · exact absurd rfl hk
      · cases hr with
        | subCont hi hne => exact dirRef_mem_rest hrep hy (Or.inl ⟨hi, hne, rfl⟩)
        | nextCont hne => exact dirRef_mem_rest hrep hy (Or.inr ⟨hne, rfl, rfl⟩)
    | file kids =>
      obtain ⟨m, hm⟩ := fileEdges_role hy
      obtain ⟨k, z⟩ := x
      cases hm
      exact file_mem_rest hrep.1.rep hy hr

theorem Inv.has_of_ref (h : Inv s g) (hx : g.Has x) (hr : s.Ref x j w) : g.Has w := by
  obtain ⟨id, n, hn, hmem⟩ := h.ref_mem hx hr
  rcases Node.edges_spec hmem with ⟨-, e, he, rfl⟩ | ⟨hk, -⟩
  · obtain ⟨c, hc⟩ := (h.entry id n e hn he).node
    exact Or.inl ⟨rfl, c, hc⟩
  · exact Or.inr ⟨hk, id, n, x, j, hn, hmem⟩

theorem Inv.has (h : Inv s g) (hx : Found s.Ref rootPlace x) : g.Has x := by
  obtain ⟨n, hn, -⟩ := h.root
  exact hx.induct (Or.inl ⟨rfl, n, hn⟩) fun _ _ _ => h.has_of_ref

/-- Two references of the image to one zone are the same. -/
theorem Inv.edge_unique (h : Inv s g) {id' : Int} {n' : Node} {e e' : Edge} (hn : g.node id = some n)
    (hn' : g.node id' = some n') (he : e ∈ n.edges id) (he' : e' ∈ n'.edges id') (heq : e.target = e'.target) :
    e = e' := by
  -- The two belong to one node: an entry has one parent, and own zones have one owner.
  have hid : id = id' := by
    obtain ⟨x, i, w⟩ := e
    obtain ⟨x', i', w'⟩ := e'
    replace heq : w.2 = w'.2 := heq
    rcases Node.edges_spec he with ⟨-, e, hmem, rfl⟩ | ⟨-, hz⟩ <;> rcases Node.edges_spec he' with ⟨-, e', hmem', rfl⟩ |
      ⟨-, hz'⟩
    · have hparent := (h.entry id n e hn hmem).parent
      replace heq : e.2 = e'.2 := heq
      rw [heq, (h.entry id' n' e' hn' hmem').parent] at hparent
      exact hparent.symm
    · obtain ⟨c, hc⟩ := (h.entry id n e hn hmem).node
      exact absurd heq (h.ne_own hc hn' hz')
    · obtain ⟨c, hc⟩ := (h.entry id' n' e' hn' hmem').node
      exact absurd heq.symm (h.ne_own hc hn hz)
    · exact h.apart id id' n n' w.2 hn hn' hz (heq ▸ hz')
  subst hid
  rw [hn] at hn'
  cases hn'
  have hnodup : ((n.edges id).map Edge.target).Nodup := by
    refine n.perm_edges.nodup_iff.mpr (List.nodup_append.mpr ⟨h.ids id n hn, h.nodup id n hn, ?_⟩)
    rintro a ha b hb rfl
    obtain ⟨e, hmem, rfl⟩ := List.mem_map.mp ha
    obtain ⟨c, hc⟩ := (h.entry id n e hn hmem).node
    exact h.ne_own hc hn hb rfl
  exact List.inj_on_of_nodup_map hnodup he he' heq

/-- A store that keeps the invariant has the shape of a tree. -/
theorem Inv.shape (h : Inv s g) : Shape s := by
  have hunique : ∀ x y i j k k' z, Found s.Ref rootPlace x → Found s.Ref rootPlace y → s.Ref x i (k, z) → s.Ref y j (k', z) →
      x = y ∧ i = j ∧ k = k' := by
    intro x y i j k k' z hx hy hr hr'
    obtain ⟨id, n, hn, hmem⟩ := h.ref_mem (h.has hx) hr
    obtain ⟨id', n', hn', hmem'⟩ := h.ref_mem (h.has hy) hr'
    have heq := h.edge_unique hn hn' hmem hmem' rfl
    exact ⟨congrArg Prod.fst heq, congrArg (fun e : Edge => e.2.1) heq, congrArg (fun e : Edge => e.2.2.1) heq⟩
  have hroot : ∀ x i k, Found s.Ref rootPlace x → ¬s.Ref x i (k, 4) := by
    intro x i k hx hr
    obtain ⟨id, n, hn, hmem⟩ := h.ref_mem (h.has hx) hr
    rcases Node.edges_spec hmem with ⟨-, e, he, heq⟩ | ⟨-, hz⟩
    · exact (h.entry id n e hn he).ne (Prod.mk.inj heq).2.symm
    · obtain ⟨m, hm, -⟩ := h.root
      exact h.ne_own hm hn hz rfl
  refine ⟨?_, fun x i id hx hr => ?_, fun x i k z hx hr hk => ?_, hunique, hroot, ?_⟩
  · obtain ⟨n, hn, hdir⟩ := h.root
    rw [h.state 4 n hn, hdir]
  · obtain ⟨d, n, hn, hmem⟩ := h.ref_mem (h.has hx) hr
    rcases Node.edges_spec hmem with ⟨hlist, e, he, heq⟩ | ⟨hk, -⟩
    · obtain ⟨-, rfl⟩ := Prod.mk.inj heq
      obtain ⟨c, hc⟩ := (h.entry d n e hn he).node
      refine ⟨h.le hc, ?_, (h.entry d n e hn he).parent.trans hlist.symm⟩
      rw [h.state _ c hc]
      cases c with
      | dir es rest => exact Or.inl rfl
      | file kids => exact Or.inr rfl
    · exact absurd rfl hk
  · obtain ⟨id, n, hn, hmem⟩ := h.ref_mem (h.has hx) hr
    rcases Node.edges_spec hmem with ⟨-, e, -, heq⟩ | ⟨-, hz⟩
    · exact absurd (Prod.mk.inj heq).1 hk
    · exact ⟨(h.placed id n hn).le_own z hz, h.own id n hn z hz⟩
  · have htree : Rooted s.Ref rootPlace := by
      refine ⟨fun x i hx => hroot x i .node hx, fun x y z i j hx hy hr hr' => ?_⟩
      obtain ⟨hxy, hij, -⟩ := hunique x y i j z.1 z.1 z.2 hx hy hr hr'
      exact ⟨hxy, hij⟩
    exact fun x hx => htree.acyclic hx

end

end MiniFs
