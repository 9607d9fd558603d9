import MiniFs.Theorems.ByPath

/-! # Writing by path

`write` removes the file that the path leads to, makes a new one and appends to it. Each of the three looks the path
up anew, in the string that the one before has left; where the path is dots and a name, the string stays as it is. -/

namespace MiniFs
open Interact Memory

/-! ## Nodes that stay -/

/-- The nodes at other zones than those of `except` are what they were. -/
def Image.Keeps (g g' : Image) (except : List Int) : Prop := ∀ i n, i ∉ except → g.node i = some n → g'.node i = some n

section
variable {s s' : Store} {g g' : Image} {d id : Int} {e : Entry} {n nd nd' : Node} {kids kids' : List Kid}
  {new except : List Int}

theorem Erased.keeps (her : Erased s g d e nd nd' (rmInodeIds id n) s' g') (h : Inv s g) (hn : g.node id = some n) :
    g.Keeps g' [d, id] := by
  intro i m hi hm
  simp only [List.mem_cons, List.not_mem_nil, or_false, not_or] at hi
  have hz : i ∉ rmInodeIds id n := by
    unfold rmInodeIds
    rw [List.mem_cons, not_or]
    exact ⟨hi.2, fun hz => h.ne_own hm hn hz rfl⟩
  rw [her.node, if_neg hz, if_neg hi.1, hm]

theorem Inserted.keeps (hins : Inserted s g d e n nd nd' new s' g') (h : Inv s g) : g.Keeps g' [d] := by
  intro i m hi hm
  have hid : i ≠ e.2 := by
    rintro rfl
    rw [h.node_eq_none hins.free] at hm
    cases hm
  rw [hins.node, if_neg (by simpa using hi), if_neg hid, hm]

theorem Extended.keeps (hext : Extended s g id kids kids' new s' g') : g.Keeps g' [id] := by
  intro i m hi hm
  rw [hext.node, if_neg (by simpa using hi), hm]

theorem Image.Keeps.dir (hk : g.Keeps g' except) (h : Inv s g) (h' : Inv s' g') (hs : s.state id = some dOccupied)
    (hid : id ∉ except) : s'.state id = some dOccupied ∧ s'.listing id = s.listing id := by
  obtain ⟨es, rest, hd⟩ := h.dir_of_state hs
  have hd' := hk id _ hid hd
  exact ⟨h'.state id _ hd', by rw [h'.listing_eq hd', h.listing_eq hd]⟩

theorem Image.Keeps.file (hk : g.Keeps g' except) (h : Inv s g) (h' : Inv s' g') (hs : s.state id = some iOccupied)
    (hid : id ∉ except) : s'.state id = some iOccupied ∧ s'.fileText id = s.fileText id := by
  obtain ⟨kids, hf⟩ := h.file_of_state hs
  have hf' := hk id _ hid hf
  exact ⟨h'.state id _ hf', by rw [h'.fileText_eq hf', h.fileText_eq hf]⟩

end

/-! ## The new file -/

/-- The directory `q` with the entries `es` has got the entry `name` for a new file with the content `str`. -/
structure Written (s : Store) (g : Image) (q : PathT) (es : List Entry) (name str : Str) (id : Int) (s' : Store)
    (g' : Image) : Prop where
  inv : Inv s' g'
  free : g.node id = none
  dir : g'.node q.id = some (.dir (es ++ [(name, id)]) [])
  state : s'.state id = some iOccupied
  text : s'.fileText id = str
  keeps : g.Keeps g' [q.id]

section
variable {s : Store} {g : Image} {pwd p q : PathT} {dir name str : Str} {es : List Entry} {id : Int}

/-- `append` to the file without data at zone `id`. -/
theorem appendTo_text (h : Inv s g) (hid : g.node id = some (.file [])) (hne : str ≠ []) (hstr : NulFree str)
    (hshort : str.length < 2 ^ 15) : wp (storeSem .kept) (appendTo id (s.zones id) str)
      (fun _ s' => ∃ kids' new g', Extended s g id [] kids' new s' g' ∧ Inv s' g' ∧ s'.fileText id = str) s := by
  have hrep := h.rep id _ hid
  have hext := extend_spec (P := .kept) rfl h hid hne hstr hshort
    (Q := fun _ s' => ∃ kids' new g', Extended s g id [] kids' new s' g' ∧ Inv s' g')
    fun kids' new s' g' hext h' => ⟨kids', new, g', hext, h'⟩
  have happ := appendTo_spec (P := .kept) (k := 0) (h.le hid) (h.used hid) hrep.1 hne hstr hshort (Or.inl rfl)
  refine wp_mono (wp_and hext happ) ?_
  rintro - s' ⟨⟨kids', new, g', hext, h'⟩, len, kids'', new', happ, -⟩
  refine ⟨kids', new, g', hext, h', ?_⟩
  have hroom : 0 + fileRoom [] = 63 * 2132 := hrep.1.text_add_room
  have hlen : len = str.length := by
    have := happ.len_eq
    omega
  rw [happ.file.fileText_eq]
  unfold content
  rw [happ.text, hlen, List.take_length]
  rfl

theorem wrtNew_written (h : Inv s g) (hpwd : pwd.Below) (hnul : NulFree (dir ++ name)) (hl : Leads pwd dir name q)
    (hname : EntryName name) (hlen : name.length ≤ 9) (hq : g.node q.id = some (.dir es [])) (hes : es.length < dentry.subs)
    (hne : str ≠ []) (hstr : NulFree str) (hshort : str.length < 2 ^ 15) :
    wp (storeSem .kept) (wrtNew pwd (dir ++ name) (dir ++ name) str)
      (fun r s' => r = 0 → ∃ id g', Written s g q es name str id s' g' ∧ wp (storeSem .kept) (getPath pwd (dir ++ name))
        (fun r t => t = s' ∧ ∃ p, r.1 = some p ∧ p.id = id) s') s := by
  unfold wrtNew
  refine wp_bind.mpr ?_
  cases hfind : lookupEntries es name with
  | some i =>
    -- The directory has another entry of this name.
    have hno : s.insertion pwd (dir ++ name) = none := by
      unfold Store.insertion
      rw [hl.lookup_eq hname h hq, hfind]
      rfl
    refine mkNode_spec rfl rfl h hpwd hnul blank_newInode isState_iOccupied (fun d nm hd => ?_) (fun _ => ?_)
      fun d nm _ _ _ _ _ _ hd => ?_
    · rw [hno] at hd
      cases hd
    · exact wp_ret.mpr fun h0 => absurd h0 (by decide)
    · rw [hno] at hd
      cases hd
  | none =>
    refine mkNode_inserted h hpwd hnul hl hname hlen blank_newInode isState_iOccupied hq hes hfind
      fun id new s₁ g₁ hins h₁ hlook => ?_
    rw [if_pos rfl]
    have hdne : q.id ≠ id := fun heq => by
      have hnone := h.node_eq_none hins.free
      rw [show (name, id).2 = q.id from heq.symm, hq] at hnone
      cases hnone
    have hid : g₁.node id = some (.file []) := by rw [hins.node, if_neg hdne.symm, if_pos rfl]
    have hpath : wp (storeSem .kept) (getPath pwd (dir ++ name)) (fun r t => t = s₁ ∧ ∃ p, r.1 = some p ∧ p.id = id) s₁ :=
      getPath_spec rfl h₁.dirs hpwd hnul ⟨rfl, .node id q, by rw [hlook], rfl⟩
    refine append_eq hpath (h₁.state _ _ hid) hne (wp_mono (appendTo_text h₁ hid hne hstr hshort) ?_)
    rintro - s₂ ⟨kids', new', g₂, hext, h₂, htext⟩ -
    have hdir : g₂.node q.id = some (.dir (es ++ [(name, id)]) []) :=
      hext.keeps _ _ (by simpa using hdne) (by rw [hins.node, if_pos rfl])
    refine ⟨id, g₂, ⟨h₂, h.node_eq_none hins.free, hdir, ?_, htext, fun i n hi hn => ?_⟩, ?_⟩
    · exact h₂.state id (.file kids') (by rw [hext.node, if_pos rfl])
    · refine hext.keeps i n ?_ (hins.keeps h i n hi hn)
      rw [List.mem_singleton]
      rintro rfl
      rw [h.node_eq_none hins.free] at hn
      cases hn
    · refine getPath_spec rfl h₂.dirs hpwd hnul ⟨rfl, .node id q, ?_, rfl⟩
      rw [hl.lookup_eq hname h₂ hdir, lookupEntries_concat hfind]
      rfl

/-! ## The old file -/

theorem mem_of_lookupEntries (h : lookupEntries es name = some id) (hne : name ≠ []) : (name, id) ∈ es := by
  unfold lookupEntries at h
  split at h
  · rename_i e he
    obtain rfl : e.1 = name := by simpa using List.find?_some he
    cases h
    exact List.mem_of_find?_eq_some he
  · rw [if_neg fun hnil => hne hnil.1] at h
    cases h

theorem Entries.length_name {L : Layout} {z : Zone} {e : Entry} (h : Entries L z es) (he : e ∈ es) : e.1.length ≤ 9 := by
  obtain ⟨i, hi, rfl⟩ := List.mem_iff_getElem.mp he
  have hslot := h.slot i (hi.trans_le h.le)
  rw [List.getElem?_eq_getElem hi] at hslot
  exact hslot.2.2.2

/-- A removable entry of the dentry has no chain after it. -/
theorem Store.Removable.unchained {rest : List Seg} (hrm : s.Removable id) (h : Inv s g)
    (hq : g.node q.id = some (.dir es rest)) (hmem : (name, id) ∈ es) : rest = [] := by
  have hparent := (h.entry _ _ (name, id) hq (List.mem_append_left _ hmem)).parent
  obtain ⟨es', rest', e, hd, he, rfl⟩ := h.removable_iff.mp hrm
  rw [show (s.zones e.2).parent = q.id from hparent, hq] at hd
  cases hd
  cases rest with
  | nil => rfl
  | cons seg rest =>
    have hids := h.ids _ _ hq
    have hsplit : (Node.dir es (seg :: rest)).entries = es ++ entriesOf seg.2 rest := rfl
    rw [hsplit, List.map_append, List.nodup_append] at hids
    have hin : e.2 ∈ (entriesOf seg.2 rest).map Prod.snd := List.mem_map_of_mem (lastEntries_subset e he)
    exact absurd rfl (hids.2.2 e.2 (List.mem_map.mpr ⟨_, hmem, rfl⟩) e.2 hin)

/-- The removable entry `name` of a directory without a chain, where the path leads. -/
structure OldEntry (s : Store) (g : Image) (pwd : PathT) (dir name : Str) (q : PathT) (es : List Entry) (id : Int) :
    Prop where
  leads : Leads pwd dir name q
  parent : g.node q.id = some (.dir es [])
  lookup : s.lookup pwd (dir ++ name) = (some (.node id q), dir ++ name)
  mem : (name, id) ∈ es

theorem EntryName.old (hname : EntryName name) (h : Inv s g) (hdir : DirPath dir)
    (hp : (s.lookup pwd (dir ++ name)).1 = some p) (hrm : s.Removable p.id) :
    ∃ q es id, p = .node id q ∧ OldEntry s g pwd dir name q es id := by
  obtain ⟨q, hq⟩ := hdir.resolves hp
  have hl := hname.leads hdir hq
  have hqdir : s.state q.id = some dOccupied := by
    by_contra hno
    rw [hl.lookup, hname.plain.walk, if_pos hno] at hp
    cases hp
  obtain ⟨es, rest, hd⟩ := h.dir_of_state hqdir
  have hlook := hl.lookup_eq hname h hd
  cases hfind : lookupEntries es name with
  | none =>
    rw [hlook, hfind] at hp
    cases hp
  | some id =>
    rw [hfind] at hlook
    obtain rfl : p = .node id q := by
      rw [hlook] at hp
      exact (Option.some.inj hp).symm
    have hmem := mem_of_lookupEntries hfind hname.ne
    obtain rfl := hrm.unchained h hd hmem
    exact ⟨q, es, id, rfl, hl, hd, hlook, hmem⟩

/-- `rm_file` of a file in a directory without a chain. -/
theorem rmFile_old (h : Inv s g) (hpwd : pwd.Below) (hnul : NulFree (dir ++ name)) (old : OldEntry s g pwd dir name q es id)
    (hfile : s.state id = some iOccupied) (hrm : s.Removable id) :
    wp (storeSem .kept) (rmFile pwd (dir ++ name)) (fun r s' => r.2 = dir ++ name ∧ ∃ g' es', Inv s' g' ∧
      g'.node q.id = some (.dir es' []) ∧ es.Perm ((name, id) :: es') ∧ g.Keeps g' [q.id, id]) s := by
  have hself : ∀ p, (s.lookup pwd (dir ++ name)).1 = some p → p = .node id q := fun p hp => by
    rw [old.lookup] at hp
    exact (Option.some.inj hp).symm
  have hok : s.RmFileOk id := Or.inr ⟨hrm, Or.inl hfile⟩
  refine rmNode_spec rfl h hpwd hnul
    (fun p n hp h4 hn => show Within p.id n (rmInodeIds p.id n) ∧ _ from h.rmFile_frees h4 (hself p hp ▸ hok) hn)
    (fun p hp _ => hself p hp ▸ hrm) (fun hlt => ?_) fun p n d e nd nd' s' g' hp hn heq her h' => ?_
  · have h4 : 4 ≤ id := Store.le_of_state hfile (by decide)
    have hlt' : id < 4 := hlt (.node id q) (by rw [old.lookup])
    omega
  · obtain rfl := hself p hp
    have heq : e.2 = id := heq
    refine ⟨by rw [old.lookup], ?_⟩
    -- The directory that loses the entry is the parent.
    have hd : d = q.id := by
      have hin : e ∈ nd.entries := her.entries.mem_iff.mpr List.mem_cons_self
      have hparent := (h.entry d nd e her.dir hin).parent
      rw [heq] at hparent
      exact hparent.symm.trans (h.entry _ _ (name, id) old.parent (List.mem_append_left _ old.mem)).parent
    subst hd
    obtain rfl : nd = .dir es [] := Option.some.inj (her.dir.symm.trans old.parent)
    have hnode : g'.node q.id = some nd' := by rw [her.node, if_neg her.not_mem, if_pos rfl]
    have hstate := h'.state _ _ hnode
    rw [her.state, if_neg her.not_mem, h.state _ _ old.parent] at hstate
    obtain ⟨es', rest', rfl⟩ := Node.eq_dir (Option.some.inj hstate).symm
    obtain rfl : rest' = [] := List.map_eq_nil_iff.mp her.own
    have hperm : es.Perm (e :: es') := by
      have := her.entries
      simpa only [Node.entries, entriesOf, List.flatMap_nil, List.append_nil] using this
    -- The ids of the entries differ.
    obtain rfl : e = (name, id) := by
      have hids := h.ids _ _ old.parent
      have hin : e ∈ (Node.dir es []).entries := List.mem_append_left _ (hperm.mem_iff.mpr List.mem_cons_self)
      exact List.inj_on_of_nodup_map hids hin (List.mem_append_left _ old.mem) heq
    exact ⟨g', es', h', hnode, hperm, her.keeps h hn⟩

/-! ## `write` -/

/-- The file of the path: what it was, and what it is now, in the directory `d`. -/
structure Overwritten (s : Store) (old : Option Int) (d : Int) (name str : Str) (id : Int) (s' : Store) : Prop where
  dir : s.state d = some dOccupied
  state : s'.state id = some iOccupied
  text : s'.fileText id = str
  entries : ∃ others, (s.listing d).Perm ((old.map fun i => (name, i)).toList ++ others) ∧
    s'.listing d = others ++ [(name, id)]
  dirs : ∀ i, s.state i = some dOccupied → s'.state i = some dOccupied ∧ (i ≠ d → s'.listing i = s.listing i)
  files : ∀ i, s.state i = some iOccupied → old ≠ some i → s'.state i = some iOccupied ∧ s'.fileText i = s.fileText i

/-- What of `write` is right: the path is dots and a name and is copied within bounds, the old entry can be removed, and
    the new one is put where `get_path` finds it. -/
structure Overwritable (s : Store) (pwd : PathT) (path name str : Str) : Prop where
  dots : ∃ dir, DirPath dir ∧ path = dir ++ name
  last : slash ∉ name ∧ name ≠ [] ∧ name ≠ lit "." ∧ name ≠ lit ".."
  copy : path.length < 64
  old : ∀ p, (s.lookup pwd path).1 = some p → s.Removable p.id
  slots : ∀ q, NewPath s pwd path name q → (s.listing q.id).length < 4
  short : str.length < 2 ^ 15

theorem Written.overwritten {s₁ s' : Store} {g₁ g' : Image} {old : Option Int} {others : List Entry}
    (hw : Written s₁ g₁ q others name str id s' g') (h : Inv s g) (hq : g.node q.id = some (.dir es []))
    (hold : ∀ i, old = some i → s.state i = some iOccupied) (hperm : es.Perm ((old.map fun i => (name, i)).toList ++ others))
    (hk : g.Keeps g₁ (q.id :: old.toList)) : Overwritten s old q.id name str id s' := by
  have hk' : g.Keeps g' (q.id :: old.toList) := fun i n hi hn => by
    refine hw.keeps i n ?_ (hk i n hi hn)
    rw [List.mem_singleton]
    exact fun heq => hi (heq ▸ List.mem_cons_self)
  have hlist : s.listing q.id = es := (h.listing_eq hq).trans (List.append_nil _)
  have hdir := h.state _ _ hq
  refine ⟨hdir, hw.state, hw.text, ⟨others, hlist ▸ hperm, ?_⟩, fun i hi => ?_, fun i hi hne => ?_⟩
  · rw [hw.inv.listing_eq hw.dir]
    exact List.append_nil _
  · by_cases hiq : i = q.id
    · exact ⟨hiq ▸ hw.inv.state _ _ hw.dir, fun hne => absurd hiq hne⟩
    have hnot : i ∉ q.id :: old.toList := by
      rw [List.mem_cons, Option.mem_toList]
      rintro (heq | hi')
      · exact hiq heq
      · rw [hold i hi'] at hi
        exact dOccupied_ne_iOccupied (Option.some.inj hi).symm
    exact ⟨(hk'.dir h hw.inv hi hnot).1, fun _ => (hk'.dir h hw.inv hi hnot).2⟩
  · refine hk'.file h hw.inv hi ?_
    rw [List.mem_cons, Option.mem_toList]
    rintro (rfl | hi')
    · rw [hdir] at hi
      exact dOccupied_ne_iOccupied (Option.some.inj hi)
    · exact hne hi'

end

/-- `write` of a path in a safe run. -/
theorem write_by_path (s : Store) (pwd : PathT) (path name str : Str) (h : Reached .kept Safe s pwd) (hnul : NulFree path)
    (hstr : NulFree str) (hne : str ≠ [])
    (hp : (∃ p, (s.lookup pwd path).1 = some p ∧ s.state p.id = some iOccupied) ∨ ∃ q, NewPath s pwd path name q)
    (hok : Overwritable s pwd path name str) :
    wp (storeSem .kept) (wrt pwd path str) (fun r s' => r = 0 → ∃ d id,
      Overwritten s ((s.lookup pwd path).1.map PathT.id) d name str id s' ∧
      wp (storeSem .kept) (getPath pwd path) (fun r t => t = s' ∧ ∃ p, r.1 = some p ∧ p.id = id) s') s := by
  obtain ⟨g, hinv, hpwd⟩ := h.inv fun _ _ _ hok => hok
  obtain ⟨dir, hdir, rfl⟩ := hok.dots
  obtain ⟨hsingle, hnil, hdot, hdots⟩ := hok.last
  have hname : EntryName name := ⟨fun c hc => hnul c (List.mem_append_right _ hc), hsingle, hnil, hdot, hdots⟩
  unfold wrt
  rw [fPathCpy, if_pos hok.copy]
  refine wp_bind.mpr (wp_ret.mpr (wp_bind.mpr (getPath_spec rfl hinv.dirs hpwd hnul ?_)))
  rcases hp with ⟨p, hp, hfile⟩ | ⟨q, hnew⟩
  · have hrm := hok.old p hp
    obtain ⟨q, es, id, rfl, old⟩ := hname.old hinv hdir hp hrm
    have hentries : Entries dentry (s.zones q.id) es := Chain.entries (hinv.rep _ _ old.parent)
    rw [old.lookup]
    dsimp only [Option.map_some]
    refine wp_bind.mpr (getState_spec hfile ?_)
    rw [if_pos rfl]
    refine wp_seq (rmFile_old hinv hpwd hnul old hfile hrm) ?_
    rintro ⟨r, cut⟩ s₁ ⟨rfl, g₁, es₁, h₁, hd₁, hperm, hk⟩
    have hlt : es₁.length < dentry.subs := by
      have := hperm.length_eq
      have := hentries.le
      rw [List.length_cons] at *
      omega
    refine wp_mono (wrtNew_written h₁ hpwd hnul old.leads hname (hentries.length_name old.mem) hd₁ hlt hne hstr hok.short)
      fun r s' hr h0 => ?_
    obtain ⟨id', g', hw, hget⟩ := hr h0
    refine ⟨q.id, id', hw.overwritten hinv old.parent (fun i hi => ?_) hperm hk, hget⟩
    cases hi
    exact hfile
  · have hl := hname.leads hdir (hnew.parent.lookup hdir rfl)
    obtain ⟨es, rest, hd⟩ := hinv.dir_of_state hnew.dir
    obtain ⟨rfl, hlt⟩ := hinv.unchained hd (hok.slots q hnew)
    have hlook := hl.lookup_eq hname hinv hd
    have hnone := hnew.unresolved
    rw [hlook] at hnone
    rw [hlook]
    dsimp only at hnone ⊢
    rw [hnone]
    refine wp_mono (wrtNew_written hinv hpwd hnul hl hname hnew.length_le hd hlt hne hstr hok.short) fun r s' hr h0 => ?_
    obtain ⟨id', g', hw, hget⟩ := hr h0
    refine ⟨q.id, id', hw.overwritten hinv hd (fun i hi => ?_) (List.Perm.refl _) fun _ _ _ hn => hn, hget⟩
    cases hi

theorem write_by_path_again : ∃ (s : Store) (pwd : PathT), (s.lookup pwd (lit "f")).1 = some (.node 5 .root) ∧
    wp (storeSem .kept) (wrt pwd (lit "f") (lit "hi")) (fun r s' => r = 0 → ∃ d id,
      Overwritten s ((s.lookup pwd (lit "f")).1.map PathT.id) d (lit "f") (lit "hi") id s' ∧
      wp (storeSem .kept) (getPath pwd (lit "f")) (fun r t => t = s' ∧ ∃ p, r.1 = some p ∧ p.id = id) s') s := by
  have hdec : ((serveAll [lit "touch f"] .root emptyDisk).map fun r => decide
    ((r.2.lookup r.1 (lit "f")).1 = some (.node 5 .root) ∧
      r.2.state 5 = some iOccupied ∧ r.2.state (r.2.zones 5).parent = some dOccupied ∧ (r.2.zones 5).parent = 4 ∧
      (findSub dentry (r.2.zones 4) 5 dentry.subs 0).isSome ∧ dentry.next (r.2.zones 4) = 0)) = some true := by decide +kernel
  obtain ⟨⟨pwd, s⟩, hserve, hres, hfile, hdir, hparent, hfind, hnext⟩ := exists_of_decide hdec
  have hreached := serveAll_reached (by decide) (by decide) hserve
  refine ⟨s, pwd, hres, write_by_path s pwd _ (lit "f") _ hreached (by decide) (by decide) (by decide)
    (Or.inl ⟨_, hres, hfile⟩) ?_⟩
  have hlast : s.lastZone zoneFuel dentry 4 = (dentry, 4) := if_pos hnext
  refine ⟨⟨[], Or.inl .nil, rfl⟩, by decide, by decide, fun p hp => ?_, fun q hq => ?_, by decide⟩
  · cases hres.symm.trans hp
    refine ⟨hdir, ?_⟩
    have hparent : (s.zones (PathT.node 5 .root).id).parent = 4 := hparent
    rw [hparent, hlast]
    exact hfind
  · cases hres.symm.trans hq.unresolved

/-- `write d/f hi` removes the directory `d` and makes a file `d`. -/
theorem write_nested : ¬∀ s pwd path name str, Reached .kept Safe s pwd → NulFree path → NulFree str → str ≠ [] →
    ((∃ p, (s.lookup pwd path).1 = some p ∧ s.state p.id = some iOccupied) ∨ ∃ q, NewPath s pwd path name q) →
    wp (storeSem .kept) (wrt pwd path str) (fun r s' => r = 0 → ∃ d id,
      Overwritten s ((s.lookup pwd path).1.map PathT.id) d name str id s' ∧
      wp (storeSem .kept) (getPath pwd path) (fun r t => t = s' ∧ ∃ p, r.1 = some p ∧ p.id = id) s') s := by
  intro hall
  have hdec : ((serveAll [lit "mkdir d", lit "cd d", lit "touch f", lit "cd .."] .root emptyDisk).bind fun r =>
      (storeMachine.exec (wrt r.1 (lit "d/f") (lit "hi")) r.2).map fun o => decide
        ((r.2.lookup r.1 (lit "d/f")).1 = some (.node 6 (.node 5 .root)) ∧ r.2.state 6 = some iOccupied ∧
          r.2.state 5 = some dOccupied ∧ o.1 = 0 ∧ o.2.state 5 = some iOccupied)) = some true := by decide +kernel
  obtain ⟨⟨pwd, s⟩, hserve, hdec⟩ := Option.bind_eq_some_iff.mp hdec
  obtain ⟨⟨r, s'⟩, hexec, hres, hfile, hdir, hr, hdir'⟩ := exists_of_decide hdec
  have hreached := serveAll_reached (by decide) (by decide) hserve
  obtain ⟨d, id, hover, -⟩ := wlp_of_wp (hall s pwd (lit "d/f") (lit "f") (lit "hi") hreached (by decide) (by decide)
    (by decide)
    (Or.inl ⟨_, hres, hfile⟩)) r s' ((storeMachine_of .kept).runs hexec) hr
  have hstate := (hover.dirs 5 hdir).1
  exact dOccupied_ne_iOccupied (Option.some.inj (hstate.symm.trans hdir'))

end MiniFs
