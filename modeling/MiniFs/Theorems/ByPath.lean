import MiniFs.Theorems.Listings

/-! # Creating and writing by path

What a `touch`, `mkdir` or `write` of a path does to the directory that the path names, and to no other. The path is
one that `get_path` leaves as it is: the components before its last one are `.` and `..`. -/

namespace MiniFs
open Interact Memory

/-! ## What is in a file -/

theorem Holds.takeWhile_range {get : Nat → Int} {cap : Nat} {ids : List Int} (h : Holds get cap ids) :
    (List.range cap).takeWhile (fun i => get i ≠ 0) = List.range ids.length := by
  obtain ⟨k, rfl⟩ := Nat.exists_eq_add_of_le h.le
  rw [List.range_add, List.takeWhile_append_of_pos]
  · cases k with
    | zero => exact List.append_nil _
    | succ k =>
      have hzero : get (ids.length + 0) = 0 := h.free ids.length (Nat.le_refl _) (by omega)
      rw [List.range_succ_eq_map, List.map_cons, List.takeWhile_cons_of_neg (by simpa using hzero), List.append_nil]
  · intro i hi
    have hlt := List.mem_range.mp hi
    simpa [h.eq_zero_iff (show i < ids.length + k by omega)] using hlt

namespace Store

/-- The text of a data zone, or the texts of what an index zone refers to. -/
def treeText (s : Store) : (level : Nat) → Int → Str
  | 0, id => (s.zones id).cstr 0
  | level + 1, id => ((List.range 32).takeWhile fun i => (s.zones id).idx i ≠ 0).flatMap fun i =>
      s.treeText level ((s.zones id).idx i)

/-- The content of file `id`, in the order in which `cat_file` visits its data zones. -/
def fileText (s : Store) (id : Int) : Str :=
  ((List.range 24).takeWhile fun i => (s.zones id).ptr i ≠ 0).flatMap fun i =>
    s.treeText (ptrLevel i) ((s.zones id).ptr i)

end Store

/-- A loop over the indices of a list is one over the list. -/
theorem flatMap_range {α β : Type} {l : List α} {f : Nat → List β} {g : α → List β}
    (h : ∀ i (hi : i < l.length), f i = g l[i]) : (List.range l.length).flatMap f = l.flatMap g := by
  have hmap : (List.range l.length).map f = l.map g := by
    refine List.ext_getElem (by simp) fun i hi hi' => ?_
    rw [List.getElem_map, List.getElem_map, List.getElem_range]
    exact h i (by simpa using hi')
  rw [List.flatMap_def, List.flatMap_def, hmap]

section
variable {s : Store} {id : Int} {kids : List Kid}

theorem FileTree.Rep.treeText_eq {n : Nat} {t : FileTree n} (h : t.Rep s.zones) : s.treeText n t.id = t.text := by
  induction n with
  | zero => exact h.2.cstr_eq
  | succ n ih =>
    obtain ⟨id, kids⟩ := t
    obtain ⟨-, hholds, hrep⟩ := h
    have hrange := hholds.takeWhile_range
    rw [List.length_map] at hrange
    show ((List.range 32).takeWhile fun i => (s.zones id).idx i ≠ 0).flatMap _ = kids.flatMap FileTree.text
    rw [hrange]
    refine flatMap_range fun i hi => ?_
    show s.treeText n ((s.zones id).idx i) = _
    rw [hholds.used i (by rwa [List.length_map]), List.getElem_map]
    exact ih (hrep _ (List.getElem_mem hi))

theorem FileRep.fileText_eq (h : FileRep s id kids) : s.fileText id = content kids := by
  have hrange := h.holds.takeWhile_range
  rw [List.length_map] at hrange
  unfold Store.fileText content
  rw [hrange]
  refine flatMap_range fun i hi => ?_
  have hlevel : kids[i].1 = ptrLevel i := by
    have hget := congrArg (fun l : List Nat => l[i]?) h.levels
    simpa [hi] using hget
  rw [h.holds.used i (by rwa [List.length_map]), List.getElem_map, ← hlevel]
  exact (h.rep _ (List.getElem_mem hi)).treeText_eq

end

/-! ## Paths that `get_path` leaves as they are -/

/-- Components `.` and `..`, each with its slash. -/
inductive DotDir : Str → Prop where
  | nil : DotDir []
  | here {dir : Str} (h : DotDir dir) : DotDir (lit "./" ++ dir)
  | up {dir : Str} (h : DotDir dir) : DotDir (lit "../" ++ dir)

/-- The part of a path before its last component: dots, which may start at the root. -/
def DirPath (dir : Str) : Prop := DotDir dir ∨ ∃ pre, pre ≠ [] ∧ DotDir pre ∧ dir = slash :: pre

/-- The last component of a path, no dots. -/
structure EntryName (name : Str) : Prop where
  nulFree : NulFree name
  single : slash ∉ name
  ne : name ≠ []
  dot : name ≠ lit "."
  dots : name ≠ lit ".."

instance (name : Str) : Decidable (EntryName name) :=
  decidable_of_iff (NulFree name ∧ slash ∉ name ∧ name ≠ [] ∧ name ≠ lit "." ∧ name ≠ lit "..")
    ⟨fun ⟨hnul, hslash, hne, hdot, hdots⟩ => ⟨hnul, hslash, hne, hdot, hdots⟩, fun h => ⟨h.1, h.2, h.3, h.4, h.5⟩⟩

section
variable {s : Store} {pwd p q : PathT} {dir name : Str} {fuel : Nat}

theorem EntryName.plain (h : EntryName name) : Plain name := by
  have hcut : ∀ n, slash ∉ name.take n := fun n hin => h.single (List.mem_of_mem_take hin)
  refine ⟨h.ne, h.dot, h.dots, fun heq => hcut 2 ?_, fun heq => hcut 3 ?_⟩
  · rw [heq]
    decide
  · rw [heq]
    decide

/-- Without their last slash dots lead to the same node. -/
theorem DotDir.concat (h : DotDir dir) : dir = [] ∨ ∃ pre, dir = 46 :: pre ++ [slash] ∧ ∀ (s : Store) fuel p,
    dir.length < fuel →
    (s.walk fuel p dir).1 = (s.walk fuel p (46 :: pre)).1 := by
  induction h with
  | nil => exact Or.inl rfl
  | @here dir h ih =>
    refine Or.inr ?_
    rcases ih with rfl | ⟨pre, rfl, hwalk⟩
    · refine ⟨[], rfl, fun s fuel p hfuel => ?_⟩
      obtain ⟨fuel, rfl⟩ : ∃ n, fuel = n + 2 := ⟨fuel - 2, by have : 2 < fuel := hfuel; omega⟩
      rw [walk_here]
      rfl
    · refine ⟨slash :: 46 :: pre, rfl, fun s fuel p hfuel => ?_⟩
      obtain ⟨fuel, rfl⟩ := Nat.exists_eq_succ_of_ne_zero (by omega : fuel ≠ 0)
      have hsplit : 46 :: slash :: 46 :: pre = lit "./" ++ 46 :: pre := rfl
      rw [hsplit, walk_here, walk_here]
      rw [List.length_append] at hfuel
      exact hwalk s fuel p (by have : (lit "./").length = 2 := rfl; omega)
  | @up dir h ih =>
    refine Or.inr ?_
    rcases ih with rfl | ⟨pre, rfl, hwalk⟩
    · refine ⟨[46], rfl, fun s fuel p hfuel => ?_⟩
      obtain ⟨fuel, rfl⟩ : ∃ n, fuel = n + 2 := ⟨fuel - 2, by have : 3 < fuel := hfuel; omega⟩
      have hone : s.walk (fuel + 2) p [46, 46] = (p.prev, [46, 46]) := by
        rw [Store.walk, if_neg (by decide), if_pos (by decide)]
      rw [hone]
      cases hprev : p.prev with
      | none => rw [walk_stuck hprev]
      | some p' =>
        rw [walk_up hprev]
        rfl
    · refine ⟨46 :: slash :: 46 :: pre, rfl, fun s fuel p hfuel => ?_⟩
      obtain ⟨fuel, rfl⟩ := Nat.exists_eq_succ_of_ne_zero (by omega : fuel ≠ 0)
      have hsplit : 46 :: 46 :: slash :: 46 :: pre = lit "../" ++ 46 :: pre := rfl
      rw [hsplit]
      rw [List.length_append] at hfuel
      cases hprev : p.prev with
      | none => rw [walk_stuck hprev, walk_stuck hprev]
      | some p' =>
        rw [walk_up hprev, walk_up hprev]
        exact hwalk s fuel p' (by have : (lit "../").length = 3 := rfl; omega)

/-- Without its last slash the part before a name leads to the same node. -/
theorem DirPath.split (h : DirPath dir) :
    dir = [] ∨ ∃ par, par ≠ [] ∧ dir = par ++ [slash] ∧ ∀ (s : Store) pwd, (s.lookup pwd dir).1 = (s.lookup pwd par).1 := by
  have hfuels : ∀ (s : Store) (p : PathT) (pre : Str), (s.walk ((46 :: pre ++ [slash]).length + 1) p (46 :: pre)).1 =
      (s.walk ((46 :: pre).length + 1) p (46 :: pre)).1 := fun s p pre =>
    congrArg Prod.fst (s.walk_fuel (by simp) (Nat.lt_succ_self _))
  rcases h with h | ⟨pre, hne, h, rfl⟩
  · rcases h.concat with rfl | ⟨pre, rfl, hwalk⟩
    · exact Or.inl rfl
    · refine Or.inr ⟨46 :: pre, nofun, rfl, fun s pwd => ?_⟩
      rw [lookup_cons (by decide), List.cons_append, lookup_cons (by decide)]
      exact (hwalk s _ pwd (Nat.lt_succ_self _)).trans (hfuels s pwd pre)
  · rcases h.concat with rfl | ⟨pre, rfl, hwalk⟩
    · exact absurd rfl hne
    · refine Or.inr ⟨slash :: 46 :: pre, nofun, rfl, fun s pwd => ?_⟩
      have hroot := (hwalk s _ .root (Nat.lt_succ_self _)).trans (hfuels s .root pre)
      rw [List.cons_append, lookup_slash, lookup_slash]
      exact hroot

/-- The directory that a path names before its last slash. -/
inductive Parent (s : Store) (pwd : PathT) : Str → Str → PathT → Prop where
  | here {name : Str} : Parent s pwd name name pwd
  | root {name : Str} : Parent s pwd (slash :: name) name .root
  | sub {par name : Str} {q : PathT} (ne : par ≠ []) (h : (s.lookup pwd par).1 = some q) : Parent s pwd
    (par ++ slash :: name) name q

theorem Parent.lookup {path : Str} (h : Parent s pwd path name q) (hdir : DirPath dir) (hpath : path = dir ++ name) :
    (s.lookup pwd dir).1 = some q := by
  cases h with
  | here =>
    obtain rfl : dir = [] := List.append_cancel_right (show dir ++ name = [] ++ name from hpath.symm)
    rfl
  | root =>
    obtain rfl : dir = [slash] := (List.append_cancel_right (show [slash] ++ name = dir ++ name from hpath)).symm
    rcases hdir with h | ⟨pre, hne, -, heq⟩
    · cases h
    · exact absurd (List.cons.inj heq).2.symm hne
  | @sub par name q ne hpar =>
    obtain rfl : dir = par ++ [slash] := (List.append_cancel_right
      (show (par ++ [slash]) ++ name = dir ++ name by rw [← hpath, List.append_assoc]; rfl)).symm
    rcases hdir.split with hnil | ⟨par', -, heq, hlook⟩
    · simp at hnil
    · obtain rfl := List.append_cancel_right heq
      rw [hlook, hpar]

theorem DotDir.dots_or (h : DotDir dir) : (∃ q, Dots p dir q) ∨ ∀ (s : Store) fuel tail,
    (s.walk fuel p (dir ++ tail)).1 = none := by
  induction h generalizing p with
  | nil => exact Or.inl ⟨p, .nil⟩
  | @here dir h ih =>
    rcases @ih p with ⟨q, hq⟩ | hno
    · exact Or.inl ⟨q, .here hq⟩
    · refine Or.inr fun s fuel tail => ?_
      cases fuel with
      | zero => rfl
      | succ fuel =>
        rw [List.append_assoc, walk_here]
        exact hno s fuel tail
  | @up dir h ih =>
    cases hprev : p.prev with
    | none =>
      refine Or.inr fun s fuel tail => ?_
      cases fuel with
      | zero => rfl
      | succ fuel => rw [List.append_assoc, walk_stuck hprev]
    | some p' =>
      rcases @ih p' with ⟨q, hq⟩ | hno
      · exact Or.inl ⟨q, .up hprev hq⟩
      · refine Or.inr fun s fuel tail => ?_
        cases fuel with
        | zero => rfl
        | succ fuel =>
          rw [List.append_assoc, walk_up hprev]
          exact hno s fuel tail

theorem Dots.walk_self (h : Dots p dir q) (hfuel : dir.length < fuel) : (s.walk fuel p dir).1 = some q := by
  have hwalk := @Dots.walk s p q dir [] fuel h (by rwa [List.append_nil])
  rw [List.append_nil] at hwalk
  rw [hwalk]
  rfl

theorem DotDir.dots (h : DotDir dir) (hfuel : dir.length < fuel) (hwalk : (s.walk fuel p dir).1 = some q) : Dots p dir q := by
  rcases @h.dots_or p with ⟨q', hq⟩ | hno
  · rw [hq.walk_self hfuel] at hwalk
    cases hwalk
    exact hq
  · have hnone := hno s fuel []
    rw [List.append_nil, hwalk] at hnone
    cases hnone

/-- The dots of a path that resolves lead to a node. -/
theorem DirPath.resolves (hdir : DirPath dir) (h : (s.lookup pwd (dir ++ name)).1 = some p) :
    ∃ q, (s.lookup pwd dir).1 = some q := by
  rcases hdir with hdir | ⟨pre, hne, hdir, rfl⟩
  · cases dir with
    | nil => exact ⟨pwd, rfl⟩
    | cons c rest =>
      have hc : c ≠ slash := by
        cases hdir <;> decide
      rw [lookup_cons hc]
      rw [List.cons_append, lookup_cons hc] at h
      rcases @DotDir.dots_or pwd _ hdir with ⟨q, hq⟩ | hno
      · exact ⟨q, hq.walk_self (Nat.lt_succ_self _)⟩
      · exact absurd ((hno s _ name).symm.trans h) nofun
  · rw [lookup_slash]
    rw [List.cons_append, lookup_slash] at h
    rcases @DotDir.dots_or .root _ hdir with ⟨q, hq⟩ | hno
    · exact ⟨q, hq.walk_self (Nat.lt_succ_self _)⟩
    · exact absurd ((hno s _ name).symm.trans h) nofun

/-- The dots before a name lead to the same directory in every store, and `rm_name` cuts the name off. -/
structure Leads (pwd : PathT) (dir name : Str) (q : PathT) : Prop where
  lookup : ∀ s : Store, s.lookup pwd (dir ++ name) =
    ((s.walk (name.length + 1) q name).1, dir ++ (s.walk (name.length + 1) q name).2)
  cuts : ∃ rest, rmName (dir ++ name) = some (name, rest) ∧ ∀ s : Store, (s.lookup pwd rest).1 = some q

theorem EntryName.leads (hname : EntryName name) (hdir : DirPath dir) (hq : (s.lookup pwd dir).1 = some q) :
    Leads pwd dir name q := by
  rcases hdir with hdir | ⟨pre, hne, hdir, rfl⟩
  · have hdots : Dots pwd dir q := by
      cases dir with
      | nil =>
        cases hq
        exact .nil
      | cons c rest =>
        have hc : c ≠ slash := by
          cases hdir <;> decide
        rw [lookup_cons hc] at hq
        exact hdir.dots (Nat.lt_succ_self _) hq
    rcases hdots.ends with ⟨rfl, rfl⟩ | ⟨pre', rfl, hwalk⟩
    · obtain ⟨c, rest, rfl⟩ := List.exists_cons_of_ne_nil hname.ne
      have hc : c ≠ slash := fun h => hname.single (h ▸ List.mem_cons_self)
      refine ⟨fun s => lookup_cons hc, [], ?_, fun _ => rfl⟩
      exact rmName_of_not_mem fun hin => hname.single (List.mem_cons_of_mem _ hin)
    · have happ : 46 :: pre' ++ [slash] ++ name = (46 :: pre') ++ slash :: name := by simp
      refine ⟨fun s => ?_, 46 :: pre', ?_, fun s => ?_⟩
      · have hcons : 46 :: pre' ++ [slash] ++ name = 46 :: (pre' ++ [slash] ++ name) := rfl
        rw [hcons, lookup_cons (by decide), ← hcons]
        exact hdots.walk (Nat.lt_succ_self _)
      · rw [happ, rmName_append (List.cons_ne_nil _ _) hname.single]
      · rw [lookup_cons (by decide), hwalk s]
  · rw [lookup_slash] at hq
    have hdots := hdir.dots (Nat.lt_succ_self _) hq
    rcases hdots.ends with ⟨rfl, -⟩ | ⟨pre', rfl, hwalk⟩
    · exact absurd rfl hne
    · have happ : slash :: (46 :: pre' ++ [slash]) ++ name = (slash :: 46 :: pre') ++ slash :: name := by simp
      refine ⟨fun s => ?_, slash :: 46 :: pre', ?_, fun s => ?_⟩
      · rw [List.cons_append, lookup_slash, hdots.walk (Nat.lt_succ_self _)]
        rfl
      · rw [happ, rmName_append (List.cons_ne_nil _ _) hname.single]
      · rw [lookup_slash, hwalk s]

/-- A name alone is looked up in the directory. -/
theorem EntryName.walk (hname : EntryName name) (hq : s.state q.id = some dOccupied) :
    s.walk (fuel + 1) q name = ((s.lookupSub q.id name).map (PathT.node · q), name) := by
  rw [hname.plain.walk, if_neg (not_not.mpr hq), takeWhile_of_not_mem hname.single]
  cases s.lookupSub q.id name with
  | none => rfl
  | some id => exact if_neg (Nat.lt_irrefl _)

theorem Leads.insertion_eq (h : Leads pwd dir name q) (hname : EntryName name) (hq : s.state q.id = some dOccupied)
    (hnone : s.lookupSub q.id name = none) : s.insertion pwd (dir ++ name) = some (q.id, name) := by
  obtain ⟨rest, hrm, hrest⟩ := h.cuts
  have hlookup := h.lookup s
  rw [hname.walk hq, hnone] at hlookup
  unfold Store.insertion
  rw [hlookup]
  dsimp only [Option.map_none]
  rw [hrm]
  dsimp only
  rw [hrest s]
  exact if_pos hq

end

/-! ## `touch` and `mkdir` -/

/-- Directory `d` has got the entry `name` for the empty file or directory at the zone `id`, and nothing else has
    changed in any directory or file. -/
structure Created (s : Store) (d : Int) (name : Str) (b : Byte) (id : Int) (s' : Store) : Prop where
  fresh : s.state id = some unoccupied
  state : s'.state id = some b
  parent : (s'.zones id).parent = d
  empty : b = dOccupied ∧ s'.listing id = [] ∨ b = iOccupied ∧ s'.fileText id = []
  listing : s'.listing d = s.listing d ++ [(name, id)]
  dirs : ∀ i, s.state i = some dOccupied → s'.state i = some dOccupied ∧ (i ≠ d → s'.listing i = s.listing i)
  files : ∀ i, s.state i = some iOccupied → s'.state i = some iOccupied ∧ s'.fileText i = s.fileText i

section
variable {s s' : Store} {g g' : Image} {d id : Int} {n nd nd' : Node} {new : List Int} {name : Str} {es : List Entry}
  {rest : List Seg} {kids : List Kid}

theorem DirTree.listing_eq (h : DirTree s g) (hd : g.node d = some (.dir es rest)) : s.listing d = entriesOf es rest :=
  (h.dirChain hd).listing_eq

theorem Inv.fileText_eq (h : Inv s g) (hid : g.node id = some (.file kids)) : s.fileText id = content kids :=
  (h.rep id _ hid).1.fileText_eq

theorem Inserted.created (hins : Inserted s g d (name, id) n nd nd' new s' g') (h : Inv s g) (h' : Inv s' g') :
    Created s d name n.state id s' := by
  have hnone : g.node id = none := h.node_eq_none hins.free
  have hne : ∀ i m, g.node i = some m → i ≠ id := by
    rintro i m hm rfl
    rw [hnone] at hm
    cases hm
  have hid : g'.node id = some n := by
    rw [hins.node, if_neg (hne d nd hins.dir).symm, if_pos rfl]
  have hd : g'.node d = some nd' := by rw [hins.node, if_pos rfl]
  have hother : ∀ i m, i ≠ d → g.node i = some m → g'.node i = some m := fun i m hi hm => by
    rw [hins.node, if_neg hi, if_neg (hne i m hm), hm]
  obtain ⟨es, rest, rfl⟩ := Node.eq_dir hins.state_dir
  have hentries := hins.entries
  -- A file has no entries.
  obtain ⟨es', rest', rfl⟩ : ∃ es' rest', nd' = .dir es' rest' := by
    cases nd' with
    | dir es' rest' => exact ⟨es', rest', rfl⟩
    | file kids => exact absurd hentries.symm (by simp [Node.entries])
  refine ⟨hins.free, h'.state id n hid, ?_, ?_, ?_, fun i hi => ?_, fun i hi => ?_⟩
  · exact (h'.entry d _ (name, id) hd (by rw [hentries]; simp)).parent
  · cases n with
    | dir es₀ rest₀ =>
      refine Or.inl ⟨rfl, ?_⟩
      rw [h'.listing_eq hid]
      exact hins.blank.1
    | file kids =>
      refine Or.inr ⟨rfl, ?_⟩
      have hlen := length_le_ids kids
      have hown : kids.flatMap (·.2.ids) = [] := hins.blank.2
      rw [hown, List.length_nil, Nat.le_zero, List.length_eq_zero_iff] at hlen
      rw [h'.fileText_eq hid, hlen]
      rfl
  · rw [h'.listing_eq hd, h.listing_eq hins.dir]
    exact hentries
  · obtain ⟨es₀, rest₀, hi'⟩ := h.dir_of_state hi
    by_cases hid : i = d
    · rw [hid]
      exact ⟨h'.state d _ hd, fun hne => absurd rfl hne⟩
    · have hnode := hother i _ hid hi'
      exact ⟨h'.state i _ hnode, fun _ => by rw [h'.listing_eq hnode, h.listing_eq hi']⟩
  · obtain ⟨kids, hi'⟩ := h.file_of_state hi
    have hid : i ≠ d := by
      rintro rfl
      rw [hins.dir] at hi'
      cases hi'
    have hnode := hother i _ hid hi'
    exact ⟨h'.state i _ hnode, by rw [h'.fileText_eq hnode, h.fileText_eq hi']⟩

/-- The entries of a directory with fewer than four are in its dentry, with a slot to spare. -/
theorem Inv.unchained (h : Inv s g) (hd : g.node d = some (.dir es rest)) (hlt : (s.listing d).length < 4) :
    rest = [] ∧ es.length < dentry.subs := by
  rw [h.listing_eq hd] at hlt
  have hle : es.length ≤ (entriesOf es rest).length := by
    unfold entriesOf
    rw [List.length_append]
    omega
  have hchain : Chain s.zones dentry d es rest := h.rep d _ hd
  have hsubs : dentry.subs = 4 := rfl
  cases rest with
  | nil => exact ⟨rfl, by omega⟩
  | cons seg rest =>
    have hfull : es.length = 4 := hchain.2.1
    omega

section
variable {pwd q : PathT} {dir path : Str} {make : Int → UInt64 → Zone}

/-- A name in directory `q` is looked up among the entries of its dentry. -/
theorem Leads.lookup_eq (hl : Leads pwd dir name q) (hname : EntryName name) (h : Inv s g)
    (hq : g.node q.id = some (.dir es rest)) :
    s.lookup pwd (dir ++ name) = ((lookupEntries es name).map (PathT.node · q), dir ++ name) := by
  rw [hl.lookup, hname.walk (h.state _ _ hq), lookupSub_eq (Chain.entries (h.rep _ _ hq)) hname.nulFree]

theorem lookupEntries_concat (h : lookupEntries es name = none) : lookupEntries (es ++ [(name, id)]) name = some id := by
  unfold lookupEntries at h ⊢
  rw [List.find?_append]
  split at h
  · cases h
  · rename_i hfind
    rw [hfind]
    simp

/-- The new entry is in the slot after the others, and it is found where the path leads. -/
theorem mkNode_inserted (h : Inv s g) (hpwd : pwd.Below) (hnul : NulFree (dir ++ name)) (hl : Leads pwd dir name q)
    (hname : EntryName name) (hlen : name.length ≤ 9) (hb : Blank n make) (hn : IsState n.state)
    (hq : g.node q.id = some (.dir es [])) (hes : es.length < dentry.subs) (hnone : lookupEntries es name = none)
    {Q : Nat → Store → Prop}
    (hQ : ∀ id new s' g', Inserted s g q.id (name, id) n (.dir es []) (.dir (es ++ [(name, id)]) []) new s' g' → Inv s' g' →
      s'.lookup pwd (dir ++ name) = (some (.node id q), dir ++ name) → Q 0 s') :
    wp (storeSem .kept) (mkNode n.state make pwd (dir ++ name)) Q s := by
  have hsub : s.lookupSub q.id name = none := (lookupSub_eq (Chain.entries (h.rep _ _ hq)) hname.nulFree).trans hnone
  have hi := hl.insertion_eq hname (h.state _ _ hq) hsub
  refine mkNode_spec rfl rfl h hpwd hnul hb hn (fun d nm hd => ?_) (fun hno => ?_)
    fun d nm id nd nd' new s' g' hd hins h' => ?_
  · rw [hi] at hd
    cases hd
    exact hlen
  · rw [hi] at hno
    cases hno
  · rw [hi] at hd
    cases hd
    obtain rfl : nd = .dir es [] := Option.some.inj (hins.dir.symm.trans hq)
    obtain rfl := hins.unchained es rfl hes
    have hq' : g'.node q.id = some (.dir (es ++ [(name, id)]) []) := by rw [hins.node, if_pos rfl]
    refine hQ id new s' g' hins h' ?_
    rw [hl.lookup_eq hname h' hq', lookupEntries_concat hnone]
    rfl

theorem mkNode_created (h : Inv s g) (hpwd : pwd.Below) (hnul : NulFree (dir ++ name)) (hdir : DirPath dir)
    (hname : EntryName name) (hlen : name.length ≤ 9) (hb : Blank n make) (hn : IsState n.state)
    (hq : (s.lookup pwd dir).1 = some q) (hstate : s.state q.id = some dOccupied)
    (hnone : (s.lookup pwd (dir ++ name)).1 = none) (hlt : (s.listing q.id).length < 4) :
    wp (storeSem .kept) (mkNode n.state make pwd (dir ++ name)) (fun r s' => r = 0 ∧ ∃ id, Created s q.id name n.state id s' ∧
      wp (storeSem .kept) (getPath pwd (dir ++ name)) (fun r t => t = s' ∧ ∃ p, r.1 = some p ∧ p.id = id) s') s := by
  have hl := hname.leads hdir hq
  obtain ⟨es, rest, hd⟩ := h.dir_of_state hstate
  obtain ⟨rfl, hes⟩ := h.unchained hd hlt
  rw [hl.lookup_eq hname h hd] at hnone
  refine mkNode_inserted h hpwd hnul hl hname hlen hb hn hd hes (Option.map_eq_none_iff.mp hnone)
    fun id new s' g' hins h' hlook => ?_
  refine ⟨rfl, id, hins.created h h', getPath_spec rfl h'.dirs hpwd hnul ⟨rfl, .node id q, ?_, rfl⟩⟩
  rw [hlook]

end

end

/-- A path that does not resolve and puts the name `name` into directory `q`. -/
structure NewPath (s : Store) (pwd : PathT) (path name : Str) (q : PathT) : Prop where
  nulFree : NulFree path
  unresolved : (s.lookup pwd path).1 = none
  parent : Parent s pwd path name q
  dir : s.state q.id = some dOccupied
  single : slash ∉ name
  ne : name ≠ []
  length_le : name.length ≤ 9

/-- The requests that create something, and the state of what they create. -/
inductive Makes : Str → Byte → Prop where
  | touch : Makes (lit "touch") iOccupied
  | mkdir : Makes (lit "mkdir") dOccupied

/-- Where the request puts the name into the directory that the path names, and `get_path` finds it there. -/
structure Creatable (s : Store) (path name : Str) (q : PathT) : Prop where
  dots : ∃ dir, DirPath dir ∧ path = dir ++ name
  name : name ≠ lit "." ∧ name ≠ lit ".."
  length_le : path.length ≤ 9
  slots : (s.listing q.id).length < 4

/-- The request answers 0, creates the entry, and `get_path` leads to it. -/
def CreatedAt (s : Store) (pwd : PathT) (path name : Str) (q : PathT) (b : Byte) (o : Option PathT)
    (u : Store × List Msg) : Prop :=
  o = some pwd ∧ u.2 = [packet (lit "0")] ∧ ∃ id, Created s q.id name b id u.1 ∧
    wp (storeSem .kept) (getPath pwd path) (fun r s' => s' = u.1 ∧ ∃ p, r.1 = some p ∧ p.id = id) u.1

theorem Makes.node {t : Str} {b : Byte} (h : Makes t b) : ∃ n make, n.state = b ∧ Blank n make ∧ IsState n.state ∧
    ∀ pwd path, interpret pwd [t, path] = create (mkNode n.state make) pwd path := by
  cases h with
  | touch => exact ⟨.file [], newInode, rfl, blank_newInode, isState_iOccupied, fun _ _ => rfl⟩
  | mkdir => exact ⟨.dir [] [], newDentry, rfl, blank_newDentry, isState_dOccupied, fun _ _ => rfl⟩

/-- `touch` and `mkdir` of a path in a safe run: they fail if it resolves, and create its entry under the conditions. -/
theorem create_by_path (s : Store) (pwd : PathT) (t path : Str) (b : Byte) (h : Reached .kept Safe s pwd) (ht : Makes t b)
    (hnul : NulFree path) :
    ((s.lookup pwd path).1 ≠ none → wp (fsSem .kept) (interpret pwd [t, path])
      (fun o u => o = some pwd ∧ u = (s, [packet (lit "4")])) (s, [])) ∧
    ∀ name q, NewPath s pwd path name q → Creatable s path name q →
      wp (fsSem .kept) (interpret pwd [t, path]) (CreatedAt s pwd path name q b) (s, []) := by
  obtain ⟨g, hinv, hpwd⟩ := h.inv fun _ _ _ hok => hok
  obtain ⟨n, make, rfl, hb, hn, hreq⟩ := ht.node
  rw [hreq]
  refine ⟨fun hres => ?_, fun name q hnew hok => ?_⟩
  · have hfail : wp (storeSem .kept) (if path.length > 9 then .ret 1 else mkNode n.state make pwd path)
        (fun r s' => r = 1 ∧ s' = s) s := by
      split
      · exact wp_ret.mpr ⟨rfl, rfl⟩
      have hno : s.insertion pwd path = none := by
        unfold Store.insertion
        cases hl : s.lookup pwd path with
        | mk r cut => cases r with
          | none => exact absurd (by rw [hl]) hres
          | some p => rfl
      refine mkNode_spec rfl rfl hinv hpwd hnul hb hn (fun d nm hd => ?_) (fun _ => ⟨rfl, rfl⟩)
        fun d nm _ _ _ _ _ _ hd _ _ => ?_
      · rw [hno] at hd
        cases hd
      · rw [hno] at hd
        cases hd
    refine wp_mono (status_spec hfail) ?_
    rintro o ⟨s', log⟩ ⟨rfl, r, ⟨rfl, rfl⟩, rfl⟩
    exact ⟨rfl, rfl⟩
  · obtain ⟨dir, hdir, rfl⟩ := hok.dots
    have hname : EntryName name :=
      ⟨fun c hc => hnul c (List.mem_append_right _ hc), hnew.single, hnew.ne, hok.name.1, hok.name.2⟩
    have hmk := mkNode_created hinv hpwd hnul hdir hname hnew.length_le hb hn (hnew.parent.lookup hdir rfl) hnew.dir
      hnew.unresolved hok.slots
    have hshort : (if (dir ++ name).length > 9 then .ret 1 else mkNode n.state make pwd (dir ++ name)) =
        mkNode n.state make pwd (dir ++ name) := if_neg (Nat.not_lt.mpr hok.length_le)
    rw [← hshort] at hmk
    refine wp_mono (status_spec hmk) ?_
    rintro o ⟨s', log⟩ ⟨rfl, r, ⟨rfl, hid⟩, rfl⟩
    exact ⟨rfl, rfl, hid⟩

theorem create_by_path_here : wp (fsSem .kept) (interpret .root [lit "touch", lit "./a"])
    (CreatedAt emptyDisk .root (lit "./a") (lit "a") .root iOccupied) (emptyDisk, []) := by
  have hparent : Parent emptyDisk .root (lit "." ++ slash :: lit "a") (lit "a") .root := .sub (by decide) rfl
  refine (create_by_path emptyDisk .root (lit "touch") (lit "./a") iOccupied (.format emptyDisk_formatted) .touch
    (by decide)).2
    (lit "a") .root ?_ ?_
  · exact ⟨by decide, by decide +kernel, hparent, by decide +kernel, by decide, by decide, by decide⟩
  · exact ⟨⟨lit "./", Or.inl (.here .nil), rfl⟩, by decide, by decide, by decide +kernel⟩

/-- `touch d/x` makes an entry `d` in the working directory, and none in the directory `d`. -/
theorem touch_nested : ¬∀ s pwd t path b name q, Reached .kept Safe s pwd → Makes t b → NewPath s pwd path name q →
    wp (fsSem .kept) (interpret pwd [t, path]) (CreatedAt s pwd path name q b) (s, []) := by
  intro hall
  have hdec : ((serveAll [lit "mkdir d"] .root emptyDisk).bind fun r =>
      (fsMachine.exec (interpret r.1 [lit "touch", lit "d/x"]) (r.2, [])).map fun o => decide
      ((r.2.lookup r.1 (lit "d/x")).1 = none ∧
        (r.2.lookup r.1 (lit "d")).1 = some (.node 5 .root) ∧ r.2.state 5 = some dOccupied ∧ o.2.1.listing 5 = [])) =
      some true := by decide +kernel
  obtain ⟨⟨pwd, s⟩, hserve, hdec⟩ := Option.bind_eq_some_iff.mp hdec
  obtain ⟨⟨o, u⟩, hexec, hnone, hd, hstate, hlist⟩ := exists_of_decide hdec
  have hparent : Parent s pwd (lit "d" ++ slash :: lit "x") (lit "x") (.node 5 .root) := .sub (by decide) hd
  have hreached := serveAll_reached (by decide) (by decide) hserve
  have hnew : NewPath s pwd (lit "d/x") (lit "x") (.node 5 .root) :=
    ⟨by decide, hnone, hparent, hstate, by decide, by decide, by decide⟩
  obtain ⟨-, -, id, hcreated, -⟩ := wlp_of_wp (hall s pwd _ _ iOccupied _ _ hreached .touch hnew) o u
    ((fsMachine_of .kept).runs hexec)
  exact absurd (hlist.symm.trans hcreated.listing) (by simp)

end MiniFs
