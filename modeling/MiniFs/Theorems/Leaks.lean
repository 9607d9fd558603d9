import MiniFs.Theorems.Failures

/-! # Zones that nothing refers to

A zone in use is a directory or a file with an entry in another directory, or one of the zones of such a node. A removal
keeps it so if it frees a node together with all its zones and entries. From the entries up to the root it follows that
the root leads to every zone in use. -/

namespace MiniFs
open Interact Memory

/-! ## Owners -/

/-- Each node but the root has an entry, and each zone of a directory or file has an owner. -/
structure Owned (s : Store) (g : Image) : Prop where
  listed : ∀ id n, g.node id = some n → id = 4 ∨ ∃ d nd e, g.node d = some nd ∧ e ∈ nd.entries ∧ e.2 = id
  used : ∀ z, 4 ≤ z → s.state z = some fOccupied → ∃ id n, g.node id = some n ∧ z ∈ n.own

/-- With a node its zones and its entries go. -/
def Rules.closed : Rules := ⟨fun _ _ => True, fun g _ zs => ∀ i n, i ∈ zs → g.node i = some n →
  (∀ z ∈ n.own, z ∈ zs) ∧ ∀ e ∈ n.entries, e.2 ∈ zs⟩

section
variable {s s' : Store} {g g' : Image}

/-- The nodes keep their entries and zones. -/
def Image.Grows (g g' : Image) : Prop := ∀ i n, g.node i = some n → ∃ n', g'.node i = some n' ∧ n.entries ⊆ n'.entries ∧
    n.own ⊆ n'.own

theorem Image.Grows.listed (hg : g.Grows g') (hJ : Owned s g) {id : Int} {n : Node} (hn : g.node id = some n) :
    id = 4 ∨ ∃ d nd e, g'.node d = some nd ∧ e ∈ nd.entries ∧ e.2 = id := by
  rcases hJ.listed id n hn with h4 | ⟨d, nd, e, hd, he, heq⟩
  · exact Or.inl h4
  · obtain ⟨nd', hd', hentries, -⟩ := hg d nd hd
    exact Or.inr ⟨d, nd', e, hd', hentries he, heq⟩

theorem Image.Grows.used (hg : g.Grows g') (hJ : Owned s g) {z : Int} (h4 : 4 ≤ z) (hz : s.state z = some fOccupied) :
    ∃ id n, g'.node id = some n ∧ z ∈ n.own := by
  obtain ⟨id, n, hn, hin⟩ := hJ.used z h4 hz
  obtain ⟨n', hn', -, hown⟩ := hg id n hn
  exact ⟨id, n', hn', hown hin⟩

theorem Inserted.grows {d : Int} {e : Entry} {n nd nd' : Node} {new : List Int} (hins : Inserted s g d e n nd nd' new s' g')
    (h : Inv s g) : g.Grows g' := by
  intro i m hm
  by_cases hi : i = d
  · subst hi
    obtain rfl : nd = m := Option.some.inj (hins.dir.symm.trans hm)
    exact ⟨nd', by rw [hins.node, if_pos rfl], hins.entries ▸ List.subset_append_left _ _,
      hins.own ▸ List.subset_append_left _ _⟩
  · have hie : i ≠ e.2 := by
      rintro rfl
      cases (h.node_eq_none hins.free).symm.trans hm
    exact ⟨m, by rw [hins.node, if_neg hi, if_neg hie, hm], List.Subset.refl _, List.Subset.refl _⟩

theorem Owned.insert {d : Int} {e : Entry} {n nd nd' : Node} {new : List Int} (hJ : Owned s g) (h : Inv s g)
    (hins : Inserted s g d e n nd nd' new s' g') : Owned s' g' := by
  have hd' : g'.node d = some nd' := by rw [hins.node, if_pos rfl]
  have hgrows := hins.grows h
  refine ⟨fun id m hm => ?_, fun z h4 hz => ?_⟩
  · rw [hins.node] at hm
    split at hm
    · rename_i hid
      exact hgrows.listed hJ (hid ▸ hins.dir)
    split at hm
    · rename_i hid
      exact Or.inr ⟨d, nd', e, hd', by rw [hins.entries]; simp, hid.symm⟩
    · exact hgrows.listed hJ hm
  · rw [hins.state] at hz
    split at hz
    · rename_i hnew
      exact ⟨d, nd', hd', by rw [hins.own]; exact List.mem_append_right _ hnew⟩
    split at hz
    · exact absurd (Option.some.inj hz) n.state_ne.1
    · exact hgrows.used hJ h4 hz

/-- What is not freed has not lost its zones, nor its entries that are not freed. -/
theorem Erased.node_of {d : Int} {e : Entry} {nd nd' : Node} {zs : List Int} (her : Erased s g d e nd nd' zs s' g') {i : Int}
    {m : Node} (hi : i ∉ zs) (hm : g.node i = some m) :
    ∃ m', g'.node i = some m' ∧ m'.own = m.own ∧ ∀ e' ∈ m.entries, e'.2 ∉ zs → e' ∈ m'.entries := by
  by_cases hid : i = d
  · subst hid
    obtain rfl : nd = m := Option.some.inj (her.dir.symm.trans hm)
    refine ⟨nd', by rw [her.node, if_neg hi, if_pos rfl], her.own, fun e' he' hz => ?_⟩
    rcases List.mem_cons.mp (her.entries.mem_iff.mp he') with rfl | he'
    · exact absurd her.mem hz
    · exact he'
  · exact ⟨m, by rw [her.node, if_neg hi, if_neg hid, hm], rfl, fun _ he' _ => he'⟩

/-- What is left was there before. -/
theorem Erased.node_from {d : Int} {e : Entry} {nd nd' : Node} {zs : List Int} (her : Erased s g d e nd nd' zs s' g')
    {i : Int} {m : Node} (hm : g'.node i = some m) : i ∉ zs ∧ ∃ m₀, g.node i = some m₀ := by
  rw [her.node] at hm
  split at hm
  · cases hm
  rename_i hi
  refine ⟨hi, ?_⟩
  split at hm
  · rename_i heq
    exact ⟨nd, heq ▸ her.dir⟩
  · exact ⟨m, hm⟩

theorem Owned.erase {d : Int} {e : Entry} {nd nd' : Node} {zs : List Int} (hJ : Owned s g)
    (her : Erased s g d e nd nd' zs s' g')
    (ok : ∀ i n, i ∈ zs → g.node i = some n → (∀ z ∈ n.own, z ∈ zs) ∧ ∀ e ∈ n.entries, e.2 ∈ zs) : Owned s' g' := by
  refine ⟨fun id m hm => ?_, fun z h4 hz => ?_⟩
  · obtain ⟨hid, m₀, hm₀⟩ := her.node_from hm
    rcases hJ.listed id m₀ hm₀ with h4 | ⟨d₀, nd₀, e₀, hd₀, he₀, rfl⟩
    · exact Or.inl h4
    · obtain ⟨nd₁, hd₁, -, hentries⟩ := her.node_of (fun hin => hid ((ok d₀ nd₀ hin hd₀).2 e₀ he₀)) hd₀
      exact Or.inr ⟨d₀, nd₁, e₀, hd₁, hentries e₀ he₀ hid, rfl⟩
  · have hzs : z ∉ zs := fun hin => by
      rw [her.state, if_pos hin] at hz
      exact absurd hz (by decide)
    rw [her.state, if_neg hzs] at hz
    obtain ⟨i, m, hm, hin⟩ := hJ.used z h4 hz
    obtain ⟨m', hm', hown, -⟩ := her.node_of (fun hi => hzs ((ok i m hi hm).1 z hin)) hm
    exact ⟨i, m', hm', hown ▸ hin⟩

theorem Extended.grows {id : Int} {kids kids' : List Kid} {new : List Int} (hext : Extended s g id kids kids' new s' g') :
    g.Grows g' := by
  intro i m hm
  by_cases hi : i = id
  · subst hi
    obtain rfl : Node.file kids = m := Option.some.inj (hext.file.symm.trans hm)
    exact ⟨.file kids', by rw [hext.node, if_pos rfl], List.Subset.refl _,
      fun z hz => hext.own.mem_iff.mpr (List.mem_append_left _ hz)⟩
  · exact ⟨m, by rw [hext.node, if_neg hi, hm], List.Subset.refl _, List.Subset.refl _⟩

theorem Owned.extend {id : Int} {kids kids' : List Kid} {new : List Int} (hJ : Owned s g)
    (hext : Extended s g id kids kids' new s' g') : Owned s' g' := by
  have hgrows := hext.grows
  refine ⟨fun i m hm => ?_, fun z h4 hz => ?_⟩
  · rw [hext.node] at hm
    split at hm
    · rename_i hi
      exact hgrows.listed hJ (hi ▸ hext.file)
    · exact hgrows.listed hJ hm
  · rw [hext.takes.state] at hz
    split at hz
    · rename_i hnew
      exact ⟨id, .file kids', by rw [hext.node, if_pos rfl], hext.own.mem_iff.mpr (List.mem_append_right _ hnew)⟩
    · exact hgrows.used hJ h4 hz

theorem Owned.step (hJ : Owned s g) (h : Inv s g) (hc : Change .closed s g s' g') : Owned s' g' := by
  cases hc with
  | insert hins short ok => exact hJ.insert h hins
  | erase her ok => exact hJ.erase her ok
  | extend hext => exact hJ.extend hext

theorem Formatted.owned (h : Formatted s) : Owned s .start := by
  refine ⟨fun id n hn => Or.inl ?_, fun z h4 hz => ?_⟩
  · unfold Image.start at hn
    dsimp only at hn
    split at hn
    · assumption
    · cases hn
  · rw [h.state] at hz
    split at hz
    · exact absurd hz (by decide)
    rw [if_neg (by omega)] at hz
    split at hz
    · exact absurd hz (by decide)
    · cases hz

end

/-! ## Removals -/

/-- A file without data, or a directory without entries. -/
def Store.Empty (s : Store) (id : Int) : Prop :=
  s.state id = some iOccupied ∧ (s.zones id).size = 1 ∨ s.state id = some dOccupied ∧ s.listing id = []

/-- `rmdir` of a file without data, or of a directory whose entries are empty. -/
def FreesAll (s : Store) (pwd : PathT) (toks : List Str) : Prop :=
  ∀ a p, toks = [lit "rmdir", a] → (s.lookup pwd a).1 = some p →
    (s.state p.id = some iOccupied → (s.zones p.id).size = 1) ∧
      (s.state p.id = some dOccupied → ∀ e ∈ s.listing p.id, s.Empty e.2)

section
variable {s : Store} {g : Image} {pwd : PathT} {id : Int} {n : Node} {kids : List Kid} {toks : List Str}

theorem Inv.own_eq_nil (h : Inv s g) (hid : g.node id = some (.file kids)) (hsize : (s.zones id).size = 1) :
    kids.flatMap (·.2.ids) = [] := by
  have hlen := (h.rep id _ hid).2
  exact List.eq_nil_iff_length_eq_zero.mpr (by omega)

theorem Inv.of_empty (h : Inv s g) (hn : g.node id = some n) (he : s.Empty id) : n.own = [] ∧ n.entries = [] := by
  rcases he with ⟨hfile, hsize⟩ | ⟨hdir, hlist⟩
  · obtain ⟨kids, hid⟩ := h.file_of_state hfile
    obtain rfl : n = .file kids := Option.some.inj (hn.symm.trans hid)
    exact ⟨h.own_eq_nil hid hsize, rfl⟩
  · obtain ⟨es, rest, hid⟩ := h.dir_of_state hdir
    obtain rfl : n = .dir es rest := Option.some.inj (hn.symm.trans hid)
    rw [h.listing_eq hid] at hlist
    refine ⟨?_, hlist⟩
    have hchain : Chain s.zones dentry id es rest := h.rep id _ hid
    cases rest with
    | nil => rfl
    | cons seg rest =>
      have hlen : es.length = 4 := hchain.2.1
      obtain rfl : es = [] := (List.append_eq_nil_iff.mp hlist).1
      cases hlen

/-- `rm_inode` frees all of what `rm_file` can remove. -/
theorem Store.RmFileOk.closed (hok : s.RmFileOk id) (h : Inv s g) (hn : g.node id = some n) :
    Rules.closed.erase g id (rmInodeIds id n) := by
  have h4 := h.le hn
  have hentries : n.entries = [] := by
    rcases hok with hlt | ⟨-, hfile | ⟨hdir, hzero⟩⟩
    · omega
    · obtain ⟨kids, hid⟩ := h.file_of_state hfile
      obtain rfl : n = .file kids := Option.some.inj (hn.symm.trans hid)
      rfl
    · obtain ⟨es, rest, hid⟩ := h.dir_of_state hdir
      obtain rfl : n = .dir es rest := Option.some.inj (hn.symm.trans hid)
      have hchain : Chain s.zones dentry id es rest := h.rep id _ hid
      obtain rfl : es = [] := List.eq_nil_iff_length_eq_zero.mpr
        (Nat.le_zero.mp ((hchain.entries.subId_eq_zero (by decide)).mp hzero))
      cases rest with
      | nil => rfl
      | cons seg rest => exact absurd hchain.2.1 (by decide)
  intro i m hi hm
  rcases List.mem_cons.mp hi with rfl | hown
  · obtain rfl : n = m := Option.some.inj (hn.symm.trans hm)
    refine ⟨fun z hz => List.mem_cons_of_mem _ hz, fun e he => ?_⟩
    rw [hentries] at he
    cases he
  · exact absurd rfl (h.ne_own hm hn hown)

/-- `rm_dentry` frees all of a directory whose entries are empty. -/
theorem FreesAll.closed (hok : FreesAll s pwd toks) (h : Inv s g) {a : Str} {p : PathT} (ht : toks = [lit "rmdir", a])
    (hp : (s.lookup pwd a).1 = some p) (hn : g.node p.id = some n) : Rules.closed.erase g p.id (rmDentryIds p.id n) := by
  obtain ⟨hfile, hdir⟩ := hok a p ht hp
  have hstate := h.state _ _ hn
  intro i m hi hm
  cases n with
  | file kids =>
    obtain rfl := List.mem_singleton.mp hi
    obtain rfl : Node.file kids = m := Option.some.inj (hn.symm.trans hm)
    have hown : (Node.file kids).own = [] := h.own_eq_nil hn (hfile hstate)
    refine ⟨fun z hz => ?_, fun e he => absurd he List.not_mem_nil⟩
    rw [hown] at hz
    cases hz
  | dir es rest =>
    rcases mem_chainIds.mp hi with rfl | hown | ⟨e, he, rfl⟩
    · obtain rfl : Node.dir es rest = m := Option.some.inj (hn.symm.trans hm)
      exact ⟨fun z hz => mem_chainIds.mpr (Or.inr (Or.inl hz)), fun e he => mem_chainIds.mpr (Or.inr (Or.inr ⟨e, he, rfl⟩))⟩
    · exact absurd rfl (h.ne_own hm hn hown)
    · obtain ⟨hown, hentries⟩ := h.of_empty hm (hdir hstate e (by rw [h.listing_eq hn]; exact he))
      rw [hown, hentries]
      exact ⟨fun z hz => absurd hz List.not_mem_nil, fun e he => absurd he List.not_mem_nil⟩

theorem FreesAll.follows (hok : FreesAll s pwd toks) (hsafe : Safe s pwd toks) (h : Inv s g) :
    Follows .closed s g pwd toks where
  insert := fun _ _ _ _ _ _ _ => trivial
  rm := by
    rintro a p n rfl hp hn
    exact (hsafe.1 rfl p hp).closed h hn
  rmdir := fun a p n ht hp hn => hok.closed h ht hp hn
  rewrite := by
    rintro a b p rfl hp hfile
    exact ⟨fun q n hq hn => (((hsafe rfl).old p hp hfile).2 q hq).closed h hn, fun _ _ _ _ _ _ _ _ => trivial⟩

end

/-! ## From the root on -/

section
variable {s : Store} {g : Image} {d id : Int} {n : Node} {x : Place} {L : Layout} {z : Int} {es : List Entry}
  {rest : List Seg}

/-- What a zone of directory `d` refers to is found where the zone is. -/
structure Shows (s : Store) (d : Int) (L : Layout) (x : Place) : Prop where
  sub : ∀ i < L.subs, L.subId (s.zones x.2) i ≠ 0 → Found s.Ref rootPlace (.node, L.subId (s.zones x.2) i)
  next : L.next (s.zones x.2) ≠ 0 → Found s.Ref rootPlace (.dirZone d, L.next (s.zones x.2))

theorem shows_dirZone (h : Found s.Ref rootPlace (.dirZone d, z)) : Shows s d dirZone (.dirZone d, z) :=
  ⟨fun _ hi hne => h.step (.subCont hi hne), fun hne => h.step (.nextCont hne)⟩

theorem Shows.chain (hx : Shows s d L x) (h : Chain s.zones L x.2 es rest) :
    (∀ e ∈ entriesOf es rest, Found s.Ref rootPlace (.node, e.2)) ∧
      ∀ z ∈ rest.map Prod.fst, Found s.Ref rootPlace (.dirZone d, z) := by
  induction rest generalizing L x es with
  | nil =>
    have hslots : ∀ e ∈ es, Found s.Ref rootPlace (.node, e.2) := by
      intro e he
      obtain ⟨i, hi, rfl⟩ := List.mem_iff_getElem.mp he
      obtain ⟨hid, hne, -⟩ := h.1.get hi
      exact hid ▸ hx.sub i (hi.trans_le h.1.le) (hid ▸ hne)
    refine ⟨fun e he => hslots e ?_, fun z hz => by cases hz⟩
    simpa [entriesOf] using he
  | cons seg rest ih =>
    obtain ⟨hes, -, hnext, h4, hrest⟩ := h
    have hseg : Found s.Ref rootPlace (.dirZone d, seg.1) := hnext ▸ hx.next (by rw [hnext]; omega)
    obtain ⟨hentries, hzones⟩ := ih (shows_dirZone hseg) hrest
    refine ⟨fun e he => ?_, fun z hz => ?_⟩
    · rcases List.mem_append.mp (show e ∈ es ++ entriesOf seg.2 rest from he) with he | he
      · obtain ⟨i, hi, rfl⟩ := List.mem_iff_getElem.mp he
        obtain ⟨hid, hne, -⟩ := hes.get hi
        exact hid ▸ hx.sub i (hi.trans_le hes.le) (hid ▸ hne)
      · exact hentries e he
    · rcases List.mem_cons.mp hz with rfl | hz
      · exact hseg
      · exact hzones z hz

theorem FileTree.Rep.found {k : Nat} {t : FileTree k} (h : t.Rep s.zones) (ht : Found s.Ref rootPlace (.tree k, t.id)) :
    ∀ z ∈ t.ids, ∃ k, Found s.Ref rootPlace (k, z) := by
  induction k with
  | zero =>
    intro z hz
    obtain rfl := List.mem_singleton.mp hz
    exact ⟨_, ht⟩
  | succ k ih =>
    obtain ⟨id, kids⟩ := t
    obtain ⟨-, hholds, hrep⟩ := h
    intro z hz
    rcases List.mem_cons.mp hz with rfl | hz
    · exact ⟨_, ht⟩
    obtain ⟨c, hc, hz⟩ := List.mem_flatMap.mp hz
    obtain ⟨i, hi, rfl⟩ := List.mem_iff_getElem.mp hc
    have hi' : i < (kids.map FileTree.id).length := by rwa [List.length_map]
    have hidx : (s.zones id).idx i = kids[i].id := by rw [hholds.used i hi', List.getElem_map]
    have hne : (s.zones id).idx i ≠ 0 := by
      rw [hholds.used i hi']
      exact hholds.ne _ (List.getElem_mem hi')
    exact ih (hrep _ hc) (hidx ▸ ht.step (.idx (hi'.trans_le hholds.le) hne)) z hz

/-- From a node that is found its entries and zones are found. -/
theorem Inv.found (h : Inv s g) (hn : g.node id = some n) (hid : Found s.Ref rootPlace (.node, id)) :
    (∀ e ∈ n.entries, Found s.Ref rootPlace (.node, e.2)) ∧ ∀ z ∈ n.own, ∃ k, Found s.Ref rootPlace (k, z) := by
  have hstate := h.state id n hn
  cases n with
  | dir es rest =>
    have hshows : Shows s id dentry (.node, id) :=
      ⟨fun _ hi hne => hid.step (.sub hstate hi hne), fun hne => hid.step (.next hstate hne)⟩
    obtain ⟨hentries, hzones⟩ := hshows.chain (h.rep id _ hn)
    exact ⟨hentries, fun z hz => ⟨_, hzones z hz⟩⟩
  | file kids =>
    refine ⟨fun e he => absurd he List.not_mem_nil, fun z hz => ?_⟩
    have hrep := (h.rep id _ hn).1
    obtain ⟨t, ht, hz⟩ := List.mem_flatMap.mp hz
    obtain ⟨i, hi, rfl⟩ := List.mem_iff_getElem.mp ht
    have hi' : i < (kids.map (·.2.id)).length := by rwa [List.length_map]
    have hptr : (s.zones id).ptr i = kids[i].2.id := by rw [hrep.holds.used i hi', List.getElem_map]
    have hne : (s.zones id).ptr i ≠ 0 := by
      rw [hrep.holds.used i hi']
      exact hrep.holds.ne _ (List.getElem_mem hi')
    have hlevel : kids[i].1 = ptrLevel i := by
      have hget := congrArg (fun l : List Nat => l[i]?) hrep.levels
      simpa [hi] using hget
    have hkid : Found s.Ref rootPlace (.tree (ptrLevel i), (s.zones id).ptr i) :=
      hid.step (.ptr hstate (hi'.trans_le hrep.holds.le) hne)
    rw [hptr, ← hlevel] at hkid
    exact (hrep.rep _ ht).found hkid z hz

/-- Where each node has an entry, the root leads to all of them. -/
theorem Owned.found (hJ : Owned s g) (h : Inv s g) (hn : g.node id = some n) : Found s.Ref rootPlace (.node, id) := by
  induction hk : g.rank id using Nat.strongRecOn generalizing id n with
  | ind k ih =>
    rcases hJ.listed id n hn with rfl | ⟨d, nd, e, hd, he, rfl⟩
    · exact Relation.ReflTransGen.refl
    · have hrank := (h.entry d nd e hd he).rank
      exact (h.found hd (ih _ (hk ▸ hrank) hd rfl)).1 e he

end

/-- A zone in use that the root does not lead to. -/
def Leaked (s : Store) (z : Int) : Prop :=
  5 ≤ z ∧ (∃ b, s.state z = some b ∧ b ≠ unoccupied) ∧ ¬∃ k, Found s.Ref rootPlace (k, z)

theorem Store.state_cases {s : Store} {z : Int} {b : Byte} (h : s.state z = some b) :
    b = unoccupied ∨ b = dOccupied ∨ b = fOccupied ∨ b = iOccupied := by
  have hlt : b.toNat < 4 := by
    unfold Store.state getState at h
    split at h
    · cases h
      decide
    split at h
    · cases h
      rw [UInt8.toNat_and]
      exact (Nat.and_le_right).trans_lt (by decide)
    · cases h
  have hvalue : b.toNat = 0 ∨ b.toNat = 1 ∨ b.toNat = 2 ∨ b.toNat = 3 := by omega
  rcases hvalue with hb | hb | hb | hb
  · exact Or.inl (UInt8.toNat_inj.mp hb)
  · exact Or.inr (Or.inl (UInt8.toNat_inj.mp hb))
  · exact Or.inr (Or.inr (Or.inl (UInt8.toNat_inj.mp hb)))
  · exact Or.inr (Or.inr (Or.inr (UInt8.toNat_inj.mp hb)))

/-- In every run of safe requests that free all of what they remove, no zone leaks. -/
theorem no_leak_of_safe_run (s : Store) (pwd : PathT)
    (h : Reached .kept (fun s pwd toks => Safe s pwd toks ∧ FreesAll s pwd toks) s pwd) : ∀ z, ¬Leaked s z := by
  rintro z ⟨h5, ⟨b, hb, hne⟩, hno⟩
  obtain ⟨g, hinv, howned, -⟩ := h.keeps (r := fun _ => .closed) (J := fun _ s g => Owned s g) (fun _ _ _ hok => hok.1)
    (fun _ _ _ _ hinv _ _ hok => hok.2.follows hok.1 hinv) (fun _ hf => hf.owned)
    (fun _ _ _ _ _ hinv hJ hc _ => hJ.step hinv hc) fun _ _ _ _ _ _ hJ _ _ _ => hJ
  have hnode : ∀ n, g.node z = some n → False := fun n hn => hno ⟨_, howned.found hinv hn⟩
  rcases Store.state_cases hb with rfl | rfl | rfl | rfl
  · exact hne rfl
  · obtain ⟨es, rest, hz⟩ := hinv.dir_of_state hb
    exact hnode _ hz
  · obtain ⟨id, n, hn, hz⟩ := howned.used z (by omega) hb
    exact hno ((hinv.found hn (howned.found hinv hn)).2 z hz)
  · obtain ⟨kids, hz⟩ := hinv.file_of_state hb
    exact hnode _ hz

theorem no_leak_of_safe_run_append : ∃ s : Store, s.state 6 = some fOccupied ∧ ∀ z, ¬Leaked s z := by
  have hdec : (serveAll [lit "touch f", lit "append f hi"] .root emptyDisk).map
      (fun r => decide (r.2.state 6 = some fOccupied)) = some true := by decide +kernel
  obtain ⟨⟨pwd, s⟩, hserve, hstate⟩ := exists_of_decide hdec
  refine ⟨s, hstate, no_leak_of_safe_run s pwd
    (.serveAll (.format emptyDisk_formatted) (by decide) ?_ hserve)⟩
  intro req hreq s pwd
  rcases List.mem_cons.mp hreq with rfl | hreq
  · exact ⟨⟨nofun, nofun⟩, fun a p heq => by cases heq⟩
  · rw [List.mem_singleton.mp hreq]
    exact ⟨nofun, fun a p heq => by cases heq⟩

/-- `rmdir` of a directory with a file leaks the data zones of the file. -/
theorem rmdir_leaks : ¬∀ s pwd, Reached .all AnyRequest s pwd → ∀ z, ¬Leaked s z := by
  intro hall
  have hdec : (serveAll [lit "mkdir d", lit "cd d", lit "touch f", lit "append f hi", lit "cd ..", lit "rmdir d"]
    .root emptyDisk).map
      (fun r => decide (r.2.state 7 = some fOccupied ∧ r.2.state 4 = some dOccupied ∧ dentry.next (r.2.zones 4) = 0 ∧
        ∀ i < 4, dentry.subId (r.2.zones 4) i = 0)) = some true := by decide +kernel
  obtain ⟨⟨pwd, s⟩, hserve, hdata, hroot, hnext, hslots⟩ := exists_of_decide hdec
  have hreached : Reached .all AnyRequest s pwd :=
    .serveAll (.format emptyDisk_formatted) (by decide) (fun _ _ _ _ => trivial) hserve
  refine hall s pwd hreached 7 ⟨by decide, ⟨fOccupied, hdata, by decide⟩, ?_⟩
  rintro ⟨k, hfound⟩
  -- The root refers to nothing.
  have hself : ((k, 7) : Place) = rootPlace := by
    refine hfound.induct (I := fun x => x = rootPlace) rfl ?_
    rintro x i y rfl hr
    cases hr with
    | sub _ hi hne => exact absurd (hslots i hi) hne
    | next _ hne => exact absurd hnext hne
    | ptr hs _ _ => exact absurd (Option.some.inj (hroot.symm.trans hs)) dOccupied_ne_iOccupied
  cases hself

end MiniFs
