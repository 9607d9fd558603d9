import MiniFs.Theorems.ByPath

/-! # Removing files and directories

`rm_file` and `rm_dir` take their argument for what they are made for and always succeed once it resolves. What is to
be gone afterwards is the entry and the whole subtree; `rm_dentry` frees the directory and the zones of its entries, and
nothing below these. -/

namespace MiniFs
open Interact Memory

namespace Image

/-- The nodes at and below node `id`. -/
inductive Under (g : Image) (id : Int) : Int → Prop where
  | self : Under g id id
  | entry {d : Int} {n : Node} {e : Entry} (h : Under g id d) (dir : g.node d = some n) (mem : e ∈ n.entries) : Under g id e.2

/-- The zones of the nodes at and below node `id`. -/
def Subtree (g : Image) (id z : Int) : Prop := ∃ i n, g.Under id i ∧ g.node i = some n ∧ z ∈ i :: n.own

end Image

/-- The entry `id` has gone from the directory that is its parent, and the zones `zs` are free. No other state, no zone
    outside the parent's chain and no other node has changed. -/
structure Unlinked (s : Store) (g : Image) (id : Int) (zs : Int → Prop) (s' : Store) : Prop where
  freed : ∀ z, zs z → s'.state z = some unoccupied
  kept : ∀ z, ¬zs z → s'.state z = s.state z
  parent : ∃ es rest es' rest' e, g.node (s.zones id).parent = some (.dir es rest) ∧ e.2 = id ∧
    (entriesOf es rest).Perm (e :: entriesOf es' rest') ∧ rest'.map Prod.fst = rest.map Prod.fst ∧
    Chain s'.zones dentry (s.zones id).parent es' rest' ∧
    ∀ z, z ≠ (s.zones id).parent → z ∉ rest.map Prod.fst → s'.zones z = s.zones z
  others : ∀ i n, g.node i = some n → ¬zs i → i ≠ (s.zones id).parent →
    n.Placed s' i ∧ (n.Rep s i → n.Rep s' i)

section
variable {s s' : Store} {g g' : Image} {id d : Int} {n nd' : Node} {ids : List Int} {zs : Int → Prop} {pwd : PathT}
  {path : Str} {rm : Int → FsM Unit} {Q : Nat × Str → Store → Prop} {es : List Entry} {rest : List Seg} {e : Entry}

/-! ## The two commands -/

theorem readZone_of_wp {P : Policy} {R : Option Zone → Store → Prop} (h4 : 4 ≤ id)
    (h : wp (storeSem P) (Fs.readZone id) R s) : R (some (s.zones id)) s := by
  obtain ⟨r, t, hR, rfl, rfl⟩ := may_of_wp h (may_readZone h4 (Q := fun r t => r = some (s.zones id) ∧ t = s) ⟨rfl, rfl⟩)
  exact hR

/-- A path that resolves is removed with success. -/
theorem rmNode_of_path (hpath : wp (storeSem .all) (getPath pwd path) (fun r t => t = s ∧ ∃ p, r.1 = some p ∧ p.id = id) s)
    (h4 : 4 ≤ id) (h : wp (storeSem .all) (do rm id; rmSub (s.zones id).parent id) (fun _ t => ∀ cut, Q (0, cut) t) s) :
    wp (storeSem .all) (rmNode rm pwd path) Q s := by
  unfold rmNode
  refine wp_bind.mpr (wp_mono hpath ?_)
  rintro ⟨r, cut⟩ t ⟨rfl, p, rfl, rfl⟩
  refine wp_bind.mpr (readZone_spec h4 (wp_bind.mpr (wp_mono (wp_bind.mp h) fun _ _ hsub => ?_)))
  exact wp_bind.mpr (wp_mono hsub fun _ _ hQ => wp_ret.mpr (hQ cut))

theorem path_of_rmNode (hpath : wp (storeSem .all) (getPath pwd path) (fun r t => t = s ∧ ∃ p, r.1 = some p ∧ p.id = id) s)
    (h4 : 4 ≤ id) (h : wp (storeSem .all) (rmNode rm pwd path) Q s) :
    wp (storeSem .all) (do rm id; rmSub (s.zones id).parent id) (fun _ t => ∃ cut, Q (0, cut) t) s := by
  unfold rmNode at h
  obtain ⟨⟨r, cut⟩, t, ⟨rfl, p, rfl, rfl⟩, hrest⟩ := store_exists (wp_and hpath (wp_bind.mp h))
  have hread := readZone_of_wp h4 (wp_bind.mp hrest)
  refine wp_bind.mpr (wp_mono (wp_bind.mp hread) fun _ _ hsub => ?_)
  exact wp_mono (wp_bind.mp hsub) fun _ _ hret => ⟨cut, wp_ret.mp hret⟩

/-! ## The entry -/

theorem DirTree.packedDir (h : DirTree s g) (hd : g.node d = some (.dir es rest)) : PackedDir s d es rest where
  toDirChain := h.dirChain hd
  ids := h.ids d _ hd
  five := fun e he => by
    have hentry := h.entry d _ e hd he
    obtain ⟨c, hc⟩ := hentry.node
    have := h.le hc
    have := hentry.ne
    omega

theorem Erased.unlinked (her : Erased s g d e (.dir es rest) nd' ids s' g') (h' : DirTree s' g') (h : DirTree s g)
    (hframe : ∀ i, i ≠ d → i ∉ rest.map Prod.fst → s'.zones i = s.zones i) (hd : (s.zones id).parent = d) (heq : e.2 = id)
    (hzs : ∀ z, zs z ↔ z ∈ ids) : Unlinked s g id zs s' := by
  subst hd
  have hnode : g'.node (s.zones id).parent = some nd' := by rw [her.node, if_neg her.not_mem, if_pos rfl]
  have hstate : nd'.state = dOccupied := by
    have hs := h'.state _ _ hnode
    rw [her.state, if_neg her.not_mem, h.state _ _ her.dir] at hs
    exact (Option.some.inj hs).symm
  obtain ⟨es', rest', rfl⟩ := Node.eq_dir hstate
  refine ⟨fun z hz => ?_, fun z hz => ?_, ⟨es, rest, es', rest', e, her.dir, heq, her.entries, her.own,
    h'.placed _ _ hnode, hframe⟩, fun i m hm hz hi => ?_⟩
  · rw [her.state, if_pos ((hzs z).mp hz)]
  · rw [her.state, if_neg (mt (hzs z).mpr hz)]
  · have hm' : g'.node i = some m := by
      rw [her.node, if_neg (mt (hzs i).mpr hz), if_neg hi]
      exact hm
    refine ⟨h'.placed i m hm', fun hrep => hrep.congr (fun z hz' => ?_) (h'.used_own hm')⟩
    rcases List.mem_cons.mp hz' with rfl | hz'
    · exact hframe z hi fun hin => h.ne_own hm her.dir hin rfl
    · exact hframe z (h.ne_own her.dir hm hz').symm fun hin => hi (h.apart i _ m _ z hm her.dir hz' hin)

/-- The zones are those that the command frees, and the entry is in the last zone of its chain. -/
theorem unlinked_of_removable (h : DirTree s g) (hn : g.node id = some n) (hwithin : Within id n ids)
    (hrem : s.Removable id) (hrm : wp (storeSem .all) (rm id) (fun _ s' => s.Frees ids s') s) (hzs : ∀ z, zs z ↔ z ∈ ids) :
    wp (storeSem .all) (do rm id; rmSub (s.zones id).parent id) (fun _ t => Unlinked s g id zs t) s := by
  obtain ⟨es, rest, e, hd, he, heq⟩ := h.removable_iff.mp hrem
  exact h.erase_swap hn hd he heq hwithin hrm fun nd' s' g' her h' _ hframe _ => her.unlinked h' h hframe rfl heq hzs

/-- An entry before the last zone leaves a damaged directory behind in some run. -/
theorem removable_of_unlinked (h : DirTree s g) (hrm : wp (storeSem .all) (rm id) (fun _ s' => s.Frees ids s') s)
    (hwp : wp (storeSem .all) (do rm id; rmSub (s.zones id).parent id) (fun _ t => Unlinked s g id zs t) s) :
    s.Removable id ∧ ∀ z, zs z → z ∈ ids ∨ s.state z = some unoccupied := by
  obtain ⟨-, t, hf, hsub⟩ := store_exists (wp_and hrm (wp_bind.mp hwp))
  obtain ⟨-, s', hunlinked⟩ := store_exists hsub
  obtain ⟨es, rest, _, _, e, hd, rfl, hperm, -⟩ := hunlinked.parent
  have hpacked := h.packedDir hd
  have hmem : e ∈ entriesOf es rest := hperm.mem_iff.mpr List.mem_cons_self
  have hchain : Chain t.zones dentry (s.zones e.2).parent es rest := hf.zones ▸ hpacked.chain
  by_cases hlast : e ∈ lastEntries es rest
  · refine ⟨h.removable_iff.mpr ⟨es, rest, e, hd, hlast, rfl⟩, fun z hz => ?_⟩
    obtain ⟨-, s₂, hun, es', rest', hremoved⟩ := store_exists (wp_and hsub
      (rmSub_spec hpacked.length_rest hpacked.le hchain hpacked.zones hpacked.ids hlast))
    have hstate : s₂.state z = t.state z := by
      unfold Store.state
      rw [hremoved.map]
    rw [hun.freed z hz, hf.state] at hstate
    split at hstate
    · exact Or.inl ‹_›
    · exact Or.inr hstate.symm
  · exfalso
    have hmay : may (storeSem .all) (rmSub (s.zones e.2).parent e.2)
      (fun _ s' => Damaged s' dentry (s.zones e.2).parent) t := by
      unfold rmSub
      refine may_bind (may_readZone hpacked.le (may_mono (may_rmSubAt dentry_ok hpacked.length_rest hpacked.length_rest
        hpacked.le
        hchain hpacked.zones hpacked.ids hmem hlast) fun _ _ hs => hs.1))
    obtain ⟨-, s₂, hun, hdamaged⟩ := may_of_wp hsub hmay
    obtain ⟨es₁, rest₁, es', rest', e₁, hd₁, -, hperm₁, -, hchain', -⟩ := hun.parent
    cases hd.symm.trans hd₁
    obtain ⟨e', he', hlt⟩ := hdamaged es' rest' hchain'
    have := hpacked.five e' (hperm₁.mem_iff.mpr (List.mem_cons_of_mem _ he'))
    omega

/-! ## `rm_file` -/

end

/-- What `rm_file` is to do with node `id`: it removes a file with all of its zones and leaves a directory alone. -/
def RmFileRight (s : Store) (g : Image) (id : Int) (r : Nat × Str) (s' : Store) : Prop :=
  (∀ kids, g.node id = some (.file kids) → r.1 = 0 ∧ Unlinked s g id (· ∈ id :: kids.flatMap (·.2.ids)) s') ∧
    ∀ es rest, g.node id = some (.dir es rest) → r.1 = 1 ∧ s' = s

section
variable {s s' : Store} {g g' : Image} {id d : Int} {n nd' : Node} {ids : List Int} {zs : Int → Prop} {pwd : PathT}
  {path : Str} {rm : Int → FsM Unit} {Q : Nat × Str → Store → Prop} {es : List Entry} {rest : List Seg} {e : Entry}

theorem DirTree.rmFile_iff (h : DirTree s g) (hn : g.node id = some n)
    (hpath : wp (storeSem .all) (getPath pwd path) (fun r t => t = s ∧ ∃ p, r.1 = some p ∧ p.id = id) s) :
    wp (storeSem .all) (rmFile pwd path) (RmFileRight s g id) s ↔ s.state id = some iOccupied ∧ s.Removable id := by
  have h4 := h.le hn
  cases n with
  | file kids =>
    have hstate : s.state id = some iOccupied := h.state id _ hn
    have hrm := @rmInode_row .all s id kids (h.placed id _ hn) h4 (h.lt hn) fun z hz =>
      Store.lt_of_state (h.own id _ hn z hz)
    constructor
    · intro hright
      have hunlinked : wp (storeSem .all) (do rmInode id; rmSub (s.zones id).parent id)
          (fun _ t => Unlinked s g id (· ∈ id :: kids.flatMap (·.2.ids)) t) s :=
        wp_mono (path_of_rmNode hpath h4 hright) fun _ _ ⟨_, hr⟩ => (hr.1 kids hn).2
      exact ⟨hstate, (removable_of_unlinked h hrm hunlinked).1⟩
    · rintro ⟨-, hrem⟩
      obtain ⟨hwithin, -⟩ := h.rmFile_frees (P := .all) h4 (Or.inr ⟨hrem, Or.inl hstate⟩) hn
      refine rmNode_of_path hpath h4 (wp_mono (unlinked_of_removable h hn hwithin hrem hrm fun _ => Iff.rfl) ?_)
      rintro - t hun cut
      refine ⟨fun kids' hk => ?_, fun es rest hd => ?_⟩
      · cases hn.symm.trans hk
        exact ⟨rfl, hun⟩
      · cases hn.symm.trans hd
  | dir es rest =>
    have hstate : s.state id = some dOccupied := h.state id _ hn
    constructor
    · intro hright
      obtain ⟨-, t, cut, -, hdir⟩ := store_exists (path_of_rmNode hpath h4 hright)
      exact absurd (hdir es rest hn).1 Nat.zero_ne_one
    · rintro ⟨hfile, -⟩
      cases hstate.symm.trans hfile

end

/-- `rm_file` is right exactly on a file whose entry is in the last zone of its directory. -/
theorem rm_file_right_iff (s : Store) (g : Image) (n : Node) (pwd : PathT) (path : Str) (id : Int) (h : DirTree s g)
    (hn : g.node id = some n)
    (hpath : wp (storeSem .all) (getPath pwd path) (fun r t => t = s ∧ ∃ p, r.1 = some p ∧ p.id = id) s) :
    wp (storeSem .all) (rmFile pwd path) (RmFileRight s g id) s ↔ s.state id = some iOccupied ∧ s.Removable id :=
  h.rmFile_iff hn hpath

/-- The root directory of the sample disk, its nodes and their paths. -/
theorem exists_sample {name : Str} {id : Int} (hname : (name, id) ∈ [(lit "a", (5 : Int)), (lit "d", 8), (lit "b", 10)]) :
    ∃ g n, Inv sampleDisk g ∧ g.node id = some n ∧ wp (storeSem .all) (getPath .root name)
      (fun r t => t = sampleDisk ∧ ∃ p, r.1 = some p ∧ p.id = id) sampleDisk := by
  have hentries : Entries dentry (sampleDisk.zones 4) [(lit "a", 5), (lit "d", 8), (lit "b", 10)] := by decide +kernel
  have hfacts : ∀ x ∈ [(lit "a", (5 : Int)), (lit "d", 8), (lit "b", 10)], sampleDisk.lookupSub 4 x.1 = some x.2 ∧
      (NulFree x.1 ∧ slash ∉ x.1 ∧ x.1 ∉ [[], lit ".", lit ".."]) ∧
      ∃ b ∈ [dOccupied, iOccupied], sampleDisk.state x.2 = some b := by decide +kernel
  obtain ⟨hlook, ⟨hnul, hslash, hplain⟩, b, hb, hstate⟩ := hfacts _ hname
  obtain ⟨g, h, -⟩ := sampleDisk_reached.inv fun _ _ _ h => h
  obtain ⟨n, hn⟩ := h.node id b hstate (by simpa using hb)
  exact ⟨g, n, h, hn, path_name (by decide +kernel) hentries hlook hnul hslash hplain⟩

/-- The file `a` of the sample disk is removed with its two data zones. -/
theorem rm_file_right_iff_sample : ∃ g kids, g.node 5 = some (.file kids) ∧ kids.length = 2 ∧
    wp (storeSem .all) (rmFile .root (lit "a")) (RmFileRight sampleDisk g 5) sampleDisk := by
  obtain ⟨g, n, h, hn, hpath⟩ := @exists_sample (lit "a") 5 (by decide)
  have hfacts : sampleDisk.state 5 = some iOccupied ∧ sampleDisk.Removable 5 ∧ (sampleDisk.zones 5).ptr 1 = 7 ∧
      (sampleDisk.zones 5).ptr 2 = 0 := by decide +kernel
  obtain ⟨hstate, hrem, hone, htwo⟩ := hfacts
  obtain ⟨kids, hk⟩ := h.file_of_state hstate
  have hzones : FileZones sampleDisk.zones 5 kids := h.placed 5 _ hk
  have hlt := mt (hzones.holds.eq_zero_iff (i := 1) (by decide)).mpr (by rw [hone]; decide)
  have hle := (hzones.holds.eq_zero_iff (i := 2) (by decide)).mp htwo
  rw [List.length_map] at hlt hle
  exact ⟨g, kids, hk, by omega,
    (rm_file_right_iff sampleDisk g n .root (lit "a") 5 h.toDirTree hn hpath).mpr ⟨hstate, hrem⟩⟩

theorem path_dot {s : Store} :
    wp (storeSem .all) (getPath .root (lit ".")) (fun r t => t = s ∧ ∃ p, r.1 = some p ∧ p.id = 4) s :=
  wp_ret.mpr ⟨rfl, .root, rfl, rfl⟩

/-- `rm .` in the root directory succeeds. -/
theorem rm_file_root : ¬∀ s g n pwd path id, Inv s g → g.node id = some n →
    wp (storeSem .all) (getPath pwd path) (fun r t => t = s ∧ ∃ p, r.1 = some p ∧ p.id = id) s →
      wp (storeSem .all) (rmFile pwd path) (RmFileRight s g id) s := by
  intro hall
  have hreached : Reached .kept Safe emptyDisk .root := .format emptyDisk_formatted
  obtain ⟨g, h, -⟩ := hreached.inv fun _ _ _ h => h
  obtain ⟨n, hn, hdir⟩ := h.root
  have hfile := ((h.rmFile_iff hn path_dot).mp (hall emptyDisk g n .root (lit ".") 4 h hn path_dot)).1
  exact absurd (hfile.symm.trans (h.state 4 n hn)) (by rw [hdir]; decide)

/-! ## `rm_dir` -/

/-- What `rm_dir` is to do with node `id`: it removes a directory other than the root with all that is below it, and
    leaves the root and files alone. -/
def RmDirRight (s : Store) (g : Image) (id : Int) (r : Nat × Str) (s' : Store) : Prop :=
  (∀ es rest, g.node id = some (.dir es rest) → id ≠ 4 → r.1 = 0 → Unlinked s g id (g.Subtree id) s') ∧
    ((id = 4 ∨ ∃ kids, g.node id = some (.file kids)) → r.1 = 1 ∧ s' = s)

/-- A file without data or a directory without entries. -/
def Store.Bare (s : Store) (id : Int) : Prop :=
  s.state id = some iOccupied ∧ (s.zones id).ptr 0 = 0 ∨ s.state id = some dOccupied ∧ dentry.subId (s.zones id) 0 = 0

instance (s : Store) (id : Int) : Decidable (s.Bare id) := inferInstanceAs (Decidable (_ ∨ _))

section
variable {s s' : Store} {g g' : Image} {id d z : Int} {n nd' : Node} {pwd : PathT} {path : Str} {es : List Entry}
  {rest : List Seg} {e : Entry}

theorem DirTree.bare_iff (h : DirTree s g) (hn : g.node id = some n) : s.Bare id ↔ n.own = [] ∧ n.entries = [] := by
  have hstate := h.state id n hn
  unfold Store.Bare
  rw [hstate]
  cases n with
  | file kids =>
    have hrep : FileZones s.zones id kids := h.placed id _ hn
    have hzero : (s.zones id).ptr 0 = 0 ↔ kids = [] := by
      rw [hrep.holds.eq_zero_iff (by decide), List.length_map, Nat.le_zero, List.length_eq_zero_iff]
    have hown : (Node.file kids).own = [] ↔ kids = [] := by
      constructor
      · intro hnil
        have hle := length_le_ids kids
        rw [show kids.flatMap (·.2.ids) = [] from hnil] at hle
        exact List.length_eq_zero_iff.mp (Nat.le_zero.mp hle)
      · rintro rfl
        rfl
    rw [hzero, hown]
    constructor
    · rintro (⟨-, hnil⟩ | ⟨hdir, -⟩)
      · exact ⟨hnil, rfl⟩
      · exact absurd (Option.some.inj hdir).symm dOccupied_ne_iOccupied
    · exact fun hnil => Or.inl ⟨rfl, hnil.1⟩
  | dir es rest =>
    have hchain : Chain s.zones dentry id es rest := h.placed id _ hn
    have hzero : dentry.subId (s.zones id) 0 = 0 ↔ es = [] := by
      rw [hchain.entries.subId_eq_zero (by decide), Nat.le_zero, List.length_eq_zero_iff]
    rw [hzero]
    constructor
    · rintro (⟨hfile, -⟩ | ⟨-, rfl⟩)
      · exact absurd (Option.some.inj hfile) dOccupied_ne_iOccupied
      · cases rest with
        | nil => exact ⟨rfl, rfl⟩
        | cons seg rest => exact absurd hchain.2.1 (by decide)
    · exact fun hnil => Or.inr ⟨rfl, (List.append_eq_nil_iff.mp hnil.2).1⟩

/-! ### The zones of the subtree -/

/-- With bare entries only, the subtree is the directory and its entries. -/
theorem DirTree.subtree_bare (h : DirTree s g) (hn : g.node id = some (.dir es rest))
    (hbare : ∀ e ∈ entriesOf es rest, s.Bare e.2) : g.Subtree id z ↔ z ∈ chainIds id es rest := by
  have hunder : ∀ i, g.Under id i → i = id ∨ ∃ e ∈ entriesOf es rest, e.2 = i := by
    intro i hi
    induction hi with
    | self => exact Or.inl rfl
    | @entry d n e _ hd he ih =>
      rcases ih with rfl | ⟨e', he', rfl⟩
      · cases hd.symm.trans hn
        exact Or.inr ⟨e, he, rfl⟩
      · rw [((h.bare_iff hd).mp (hbare e' he')).2] at he
        exact absurd he List.not_mem_nil
  rw [mem_chainIds]
  constructor
  · rintro ⟨i, m, hi, hm, hz⟩
    rcases hunder i hi with rfl | ⟨e, he, rfl⟩
    · cases hm.symm.trans hn
      rcases List.mem_cons.mp hz with rfl | hz
      · exact Or.inl rfl
      · exact Or.inr (Or.inl hz)
    · rw [((h.bare_iff hm).mp (hbare e he)).1] at hz
      exact Or.inr (Or.inr ⟨e, he, (List.mem_singleton.mp hz).symm⟩)
  · rintro (rfl | hz | ⟨e, he, rfl⟩)
    · exact ⟨z, _, .self, hn, List.mem_cons_self⟩
    · exact ⟨id, _, .self, hn, List.mem_cons_of_mem _ hz⟩
    · obtain ⟨c, hc⟩ := (h.entry id _ e hn he).node
      exact ⟨e.2, c, .entry .self hn he, hc, List.mem_cons_self⟩

/-- What is below an entry is neither the directory, nor a zone of its chain, nor one of its entries. -/
theorem DirTree.below_not_freed (h : DirTree s g) (hn : g.node id = some (.dir es rest)) (he : e ∈ entriesOf es rest)
    (hc : g.node e.2 = some n) (hz : z ∈ n.own ∨ ∃ e' ∈ n.entries, e'.2 = z) :
    z ∉ chainIds id es rest ∧ s.state z ≠ some unoccupied := by
  have hentry := h.entry id _ e hn he
  have hne : e.2 ≠ id := fun heq => by
    have := hentry.rank
    rw [heq] at this
    exact Nat.lt_irrefl _ this
  rw [mem_chainIds]
  rcases hz with hz | ⟨e', he', rfl⟩
  · refine ⟨?_, ?_⟩
    · rintro (rfl | hown | ⟨e', he', rfl⟩)
      · exact h.ne_own hn hc hz rfl
      · exact hne (h.apart e.2 id n _ z hc hn hz hown)
      · obtain ⟨c, hc'⟩ := (h.entry id _ e' hn he').node
        exact h.ne_own hc' hc hz rfl
    · rw [h.own e.2 n hc z hz]
      decide
  · have hentry' := h.entry e.2 n e' hc he'
    obtain ⟨c, hc'⟩ := hentry'.node
    refine ⟨?_, ?_⟩
    · rintro (heq | hown | ⟨e₂, he₂, heq⟩)
      · have h1 := hentry.rank
        have h2 := hentry'.rank
        rw [heq] at h2
        omega
      · exact h.ne_own hc' hn hown rfl
      · have hparent := (h.entry id _ e₂ hn he₂).parent
        rw [heq, hentry'.parent] at hparent
        exact hne hparent
    · rw [h.state _ c hc']
      exact fun heq => c.state_ne.2 (Option.some.inj heq)

theorem DirTree.rmDir_iff (h : DirTree s g) (hn : g.node id = some n)
    (hpath : wp (storeSem .all) (getPath pwd path) (fun r t => t = s ∧ ∃ p, r.1 = some p ∧ p.id = id) s) :
    wp (storeSem .all) (rmDir pwd path) (RmDirRight s g id) s ↔
      s.state id = some dOccupied ∧ id ≠ 4 ∧ s.Removable id ∧ ∀ e ∈ s.listing id, s.Bare e.2 := by
  have h4 := h.le hn
  have hstate := h.state id n hn
  have hnever : (id = 4 ∨ ∃ kids, g.node id = some (.file kids)) →
      ¬wp (storeSem .all) (rmDir pwd path) (RmDirRight s g id) s := fun hno hright => by
    obtain ⟨-, t, cut, hr⟩ := store_exists (path_of_rmNode hpath h4 hright)
    exact Nat.zero_ne_one (hr.2 hno).1
  cases n with
  | file kids =>
    refine ⟨fun hright => absurd hright (hnever (Or.inr ⟨kids, hn⟩)), fun hok => ?_⟩
    cases hstate.symm.trans hok.1
  | dir es rest =>
    obtain ⟨hwithin, hrm⟩ := h.rmDentry_frees (P := .all) hn
    rw [h.listing_eq hn]
    constructor
    · intro hright
      have hroot : id ≠ 4 := fun heq => hnever (Or.inl heq) hright
      have hunlinked : wp (storeSem .all) (do rmDentry id; rmSub (s.zones id).parent id)
          (fun _ t => Unlinked s g id (g.Subtree id) t) s :=
        wp_mono (path_of_rmNode hpath h4 hright) fun _ _ ⟨_, hr⟩ => hr.1 es rest hn hroot rfl
      obtain ⟨hrem, hfreed⟩ := removable_of_unlinked h hrm hunlinked
      refine ⟨hstate, hroot, hrem, fun e he => ?_⟩
      obtain ⟨c, hc⟩ := (h.entry id _ e hn he).node
      have hunder : g.Under id e.2 := .entry .self hn he
      refine (h.bare_iff hc).mpr ⟨List.eq_nil_iff_forall_not_mem.mpr fun z hz => ?_, List.eq_nil_iff_forall_not_mem.mpr
        fun e' he' => ?_⟩
      · obtain ⟨hnot, hused⟩ := h.below_not_freed hn he hc (Or.inl hz)
        exact (hfreed z ⟨e.2, c, hunder, hc, List.mem_cons_of_mem _ hz⟩).elim hnot hused
      · obtain ⟨hnot, hused⟩ := h.below_not_freed hn he hc (Or.inr ⟨e', he', rfl⟩)
        obtain ⟨c', hc'⟩ := (h.entry e.2 c e' hc he').node
        exact (hfreed e'.2 ⟨e'.2, c', .entry hunder hc he', hc', List.mem_cons_self⟩).elim hnot hused
    · rintro ⟨-, hroot, hrem, hbare⟩
      refine rmNode_of_path hpath h4 (wp_mono
        (unlinked_of_removable h hn hwithin hrem hrm fun _ => h.subtree_bare hn hbare) ?_)
      rintro - t hun cut
      refine ⟨fun _ _ _ _ _ => hun, ?_⟩
      rintro (heq | ⟨kids, hk⟩)
      · exact absurd heq hroot
      · cases hn.symm.trans hk

end

/-- `rm_dir` is right exactly on a directory other than the root whose entry is in the last zone of its directory, and
    where no entry has a data zone or an entry of its own. -/
theorem rm_dir_right_iff (s : Store) (g : Image) (n : Node) (pwd : PathT) (path : Str) (id : Int) (h : DirTree s g)
    (hn : g.node id = some n)
    (hpath : wp (storeSem .all) (getPath pwd path) (fun r t => t = s ∧ ∃ p, r.1 = some p ∧ p.id = id) s) :
    wp (storeSem .all) (rmDir pwd path) (RmDirRight s g id) s ↔
      s.state id = some dOccupied ∧ id ≠ 4 ∧ s.Removable id ∧ ∀ e ∈ s.listing id, s.Bare e.2 := h.rmDir_iff hn hpath

/-- The directory `d` of the sample disk is removed with the file in it. -/
theorem rm_dir_right_iff_sample : ∃ g n, g.node 8 = some n ∧ n.entries = [(lit "x", 9)] ∧
    wp (storeSem .all) (rmDir .root (lit "d")) (RmDirRight sampleDisk g 8) sampleDisk := by
  obtain ⟨g, n, h, hn, hpath⟩ := @exists_sample (lit "d") 8 (by decide)
  have hfacts : sampleDisk.state 8 = some dOccupied ∧ sampleDisk.Removable 8 ∧ sampleDisk.listing 8 = [(lit "x", 9)] ∧
      sampleDisk.Bare 9 := by decide +kernel
  obtain ⟨hstate, hrem, hlist, hbare⟩ := hfacts
  obtain ⟨es, rest, hd⟩ := h.dir_of_state hstate
  refine ⟨g, _, hd, (h.listing_eq hd).symm.trans hlist,
    (rm_dir_right_iff sampleDisk g n .root (lit "d") 8 h.toDirTree hn hpath).mpr ⟨hstate, by decide, hrem, fun e he => ?_⟩⟩
  rw [hlist] at he
  rw [List.mem_singleton.mp he]
  exact hbare

/-- `rmdir a` on a file `a` succeeds. -/
theorem rm_dir_file : ¬∀ s g n pwd path id, Inv s g → g.node id = some n →
    wp (storeSem .all) (getPath pwd path) (fun r t => t = s ∧ ∃ p, r.1 = some p ∧ p.id = id) s →
      wp (storeSem .all) (rmDir pwd path) (RmDirRight s g id) s := by
  intro hall
  obtain ⟨g, n, h, hn, hpath⟩ := @exists_sample (lit "a") 5 (by decide)
  have hdir := ((h.rmDir_iff hn hpath).mp (hall sampleDisk g n .root (lit "a") 5 h hn hpath)).1
  exact absurd hdir (by decide +kernel)

end MiniFs
