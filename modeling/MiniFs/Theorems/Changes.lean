import MiniFs.Theorems.Invariant

/-! # What the commands change

Each command that succeeds makes one change to the image of the file system: a new entry in a directory, an entry less
or more data in a file. Each change keeps the invariant. -/

namespace MiniFs
open Interact Memory

/-! ## A new entry -/

/-- Directory `d`, the node `nd`, has got the entry `e` for the new node `n`, and is the node `nd'` now. -/
structure Inserted (s : Store) (g : Image) (d : Int) (e : Entry) (n nd nd' : Node) (new : List Int) (s' : Store)
    (g' : Image) : Prop where
  dir : g.node d = some nd
  state_dir : nd.state = dOccupied
  blank : n.entries = [] ∧ n.own = []
  node : ∀ i, g'.node i = if i = d then some nd' else if i = e.2 then some n else g.node i
  entries : nd'.entries = nd.entries ++ [e]
  own : nd'.own = nd.own ++ new
  le : 4 ≤ e.2
  free : s.state e.2 = some unoccupied
  state : ∀ z, s'.state z = if z ∈ new then some fOccupied else if z = e.2 then some n.state else s.state z
  unchained : ∀ es, nd = .dir es [] → es.length < dentry.subs → nd' = .dir (es ++ [e]) []

/-- What `mk_file` and `mk_dir` do once they know the directory. -/
def enter (state : Byte) (make : Int → UInt64 → Zone) (d : Int) (name : Str) : FsM Nat := do
  let id ← Fs.getFreeId state
  if id < 0 then .ret 1
  else
    let now ← Fs.time
    Fs.writeZone id (make d now)
    addSub d id name
    .ret 0

/-- The zones that `make` writes are those of the empty node `n`. -/
structure Blank (n : Node) (make : Int → UInt64 → Zone) : Prop where
  entries : n.entries = []
  own : n.own = []
  rep : ∀ (s : Store) id d now, s.zones id = make d now → n.Rep s id
  parent : ∀ d now, Zone.Fits d → (make d now).parent = d
  time : ∀ d now, (make d now).time = now.toNat

theorem blank_newInode : Blank (.file []) newInode where
  entries := rfl
  own := rfl
  rep := fun s id d now h => ⟨fileRep_nil fun i hi => by rw [h]; exact ptr_newInode hi, by rw [h]; exact size_newInode⟩
  parent := fun _ _ hd => parent_newInode hd
  time := fun _ _ => time_newInode

theorem blank_newDentry : Blank (.dir [] []) newDentry where
  entries := rfl
  own := rfl
  rep := fun s id d now h => by
    -- Neither the mode nor the time lies in the slots or in `next`.
    have hget : ∀ k, 6 ≤ k → k < 56 → (newDentry d now).get k = (Zone.setParent .zero d).get k := fun k hk hk' => by
      unfold newDentry
      refine (Bytes.get_blit_of_disjoint (Or.inl hk')).trans (Bytes.get_blit_of_disjoint (Or.inr ?_))
      rw [length_bytes16]
      omega
    have hslots : Entries dentry (newDentry d now) [] :=
      (entries_zero dentry dentry_ok).congr (fun k hk hk' => hget k hk (hk'.trans (by decide))) dentry_ok
    have hnext : dentry.next (newDentry d now) = 0 := by
      show int16Of ((newDentry d now).get 54) ((newDentry d now).get 55) = 0
      rw [hget 54 (by omega) (by omega), hget 55 (by omega) (by omega)]
      exact (Bytes.int16_blit_of_disjoint (by rw [length_bytes16]; omega)).trans (Bytes.int16_zero _)
    show Entries dentry (s.zones id) [] ∧ dentry.next (s.zones id) = 0
    rw [h]
    exact ⟨hslots, hnext⟩
  parent := fun d now hd => by
    unfold newDentry
    rw [Zone.parent_setTime]
    refine (Bytes.int16_blit_of_disjoint (Or.inl ?_)).trans (Bytes.int16_blit_bytes16 (by omega) hd.1 hd.2)
    omega
  time := fun _ _ => Zone.time_setTime

section
variable {P : Policy} {s s' : Store} {g : Image} {d id : Int} {n nd nd' : Node} {name : Str}

/-- The node at the new zone, before it is an entry. -/
theorem Blank.orphan {make : Int → UInt64 → Zone} {now : UInt64} {s₁ : Store} (hb : Blank n make) (h4 : 4 ≤ id)
    (hfree : s.state id = some unoccupied) (hset : s.SetState id n.state s₁) (hnow : now.toNat < 2 ^ 63) :
    Orphan s id n (s₁.write id (make d now)) := by
  refine ⟨h4, hfree, hb.rep _ id d now (Store.zones_write_self _ _ _), hb.entries, hb.own, ?_, hset.state, fun z hz => ?_⟩
  · rw [Store.zones_write_self, hb.time]
    exact hnow
  · rw [Store.zones_write_of_ne _ hz, hset.zones]

theorem enter_first (hP : P.room = true) (h : Inv s g) {es : List Entry} {rest : List Seg}
    (hd : g.node d = some (.dir es rest)) {make : Int → UInt64 → Zone} (hb : Blank n make) (hn : IsState n.state)
    (hname : NulFree name) (hlen : name.length ≤ 9) {Q : Nat → Store → Prop}
    (hQ : ∀ id nd' new s' g', s.First id → Inserted s g d (name, id) n (.dir es rest) nd' new s' g' →
      Inv s' g' → Q 0 s') :
    wp (storeSem P) (enter n.state make d name) Q s := by
  unfold enter
  refine wp_bind.mpr (getFreeId_first (k := 0) hn n.state_ne.2 (Or.inl hP) fun id s₁ hfirst hlt hset _ => ?_)
  have h4 := hfirst.le
  have hfree := hfirst.free
  rw [if_neg (by omega)]
  refine wp_bind.mpr (time_spec fun now hnow => wp_bind.mpr (writeZone_spec h4 ?_))
  have horphan := hb.orphan (d := d) h4 hfree hset hnow
  have hparent : ((s₁.write id (make d now)).zones id).parent = d := by
    rw [Store.zones_write_self, hb.parent d now ⟨by have := h.le hd; omega, by have := h.lt hd; omega⟩]
  generalize s₁.write id (make d now) = s₂ at horphan hparent
  have hinv := horphan.inv h (g.rank d + 1)
  have hdne : d ≠ id := by
    rintro rfl
    rw [h.node_eq_none hfree] at hd
    cases hd
  have hd₂ : ((g.set id n).rankAs id (g.rank d + 1)).node d = some (.dir es rest) := (Image.node_set_of_ne hdne).trans hd
  have hadd : Addable P s₂ dentry d (s₂.zones d) es rest (name, id) 0 := by
    refine ⟨h.le hd, ?_, hinv.nodup_zones hd₂, fun i hi => ?_, ⟨by omega, by omega⟩, by omega, hname, hlen, Or.inl hP⟩
    · rw [Store.write_self]
      exact hinv.rep d _ hd₂
    · rcases List.mem_cons.mp hi with rfl | hi
      · exact hinv.used hd₂
      · exact hinv.used_own hd₂ i hi
  have hlen' := h.length_rest hd
  refine wp_bind.mpr (addSub_spec (e := (name, id)) hadd hlen' fun zone s₃ es' rest' new hadded hpar htime _ => wp_ret.mpr ?_)
  have hentries : (Node.dir es' rest').entries = (Node.dir es rest).entries ++ [(name, id)] := hadded.entries
  have hown : (Node.dir es' rest').own = (Node.dir es rest).own ++ new := hadded.ids
  have hids : ∀ e ∈ entriesOf es rest, e.2 ≠ id := by
    rintro e he rfl
    obtain ⟨c, hc⟩ := (h.entry d _ e hd he).node
    rw [h.node_eq_none hfree] at hc
    cases hc
  have hrep : Replaced s₂ ((g.set id n).rankAs id (g.rank d + 1)) d (.dir es rest) (.dir es' rest') new s₃ := by
    refine ⟨hd₂, hadded.chain, rfl, hadded.takes, hown ▸ List.Perm.refl _, hadded.frame, hpar, fun e he => ?_, ?_⟩
    · rw [hentries] at he
      rcases List.mem_append.mp he with he | he
      · exact hinv.entry d _ e hd₂ he
      · rw [List.mem_singleton.mp he]
        refine ⟨⟨n, Image.node_set_self⟩, hparent, ?_, ?_⟩
        · show (if d = id then _ else g.rank d) < if id = id then g.rank d + 1 else _
          rw [if_neg hdne, if_pos rfl]
          exact Nat.lt_succ_self _
        · rintro rfl
          obtain ⟨m, hm, -⟩ := h.root
          rw [h.node_eq_none hfree] at hm
          cases hm
    · rw [hentries, List.map_append]
      refine List.nodup_append.mpr ⟨h.ids d _ hd, List.nodup_singleton _, ?_⟩
      rintro a ha b hb rfl
      obtain ⟨e, he, hea⟩ := List.mem_map.mp ha
      exact hids e he (hea.trans (List.mem_singleton.mp hb))
  refine hQ id _ new s₃ _ hfirst ⟨hd, rfl, ⟨hb.entries, hb.own⟩, fun i => rfl, hentries, hown, h4, hfree, fun z => ?_, ?_⟩
    (hrep.inv hinv hadded.chain htime)
  · rw [hadded.takes.state, horphan.state]
  · rintro es₀ heq hlt
    cases heq
    obtain ⟨rfl, rfl⟩ := hadded.unchained rfl hlt
    rfl

end

/-! ## An entry less -/

/-- Directory `d` has lost the entry `e`, and the zones `zs`, that of `e` among them, are free. -/
structure Erased (s : Store) (g : Image) (d : Int) (e : Entry) (nd nd' : Node) (zs : List Int) (s' : Store) (g' : Image) :
    Prop where
  dir : g.node d = some nd
  node : ∀ i, g'.node i = if i ∈ zs then none else if i = d then some nd' else g.node i
  not_mem : d ∉ zs
  mem : e.2 ∈ zs
  entries : nd.entries.Perm (e :: nd'.entries)
  own : nd'.own = nd.own
  state : ∀ z, s'.state z = if z ∈ zs then some unoccupied else s.state z

/-- The zones `zs` are that of the node `n` at zone `id` and no others than its own ones and those of its entries. -/
structure Within (id : Int) (n : Node) (zs : List Int) : Prop where
  self : id ∈ zs
  sub : ∀ z ∈ zs, z = id ∨ z ∈ n.own ∨ ∃ e ∈ n.entries, e.2 = z

section
variable {P : Policy} {s s' : Store} {g : Image} {d id : Int} {n nd nd' : Node} {zs : List Int} {e : Entry}

/-- Once the entry for `n` is gone, the zones `zs` can go. -/
theorem Within.vanish (hw : Within id n zs) (h : DirTree s g) (hn : g.node id = some n) (hf : s.Frees zs s') (h4 : id ≠ 4)
    (hgone : ∀ d m e, g.node d = some m → e ∈ m.entries → e.2 ≠ id) : Vanish s g zs s' := by
  refine ⟨hf, fun hin => ?_, fun i m z hm hz hin => ?_, fun i m e hm he hin => ?_⟩
  · obtain ⟨m, hm, -⟩ := h.root
    rcases hw.sub 4 hin with heq | hz | ⟨e, he, heq⟩
    · exact h4 heq.symm
    · exact h.ne_own hm hn hz rfl
    · exact (h.entry id n e hn he).ne heq
  · rcases hw.sub z hin with rfl | hz' | ⟨e, he, rfl⟩
    · exact absurd rfl (h.ne_own hn hm hz)
    · rw [h.apart i id m n z hm hn hz hz']
      exact hw.self
    · obtain ⟨c, hc⟩ := (h.entry id n e hn he).node
      exact absurd rfl (h.ne_own hc hm hz)
  · rcases hw.sub e.2 hin with heq | hz | ⟨e', he', heq⟩
    · exact absurd heq (hgone i m e hm he)
    · obtain ⟨c, hc⟩ := (h.entry i m e hm he).node
      exact absurd rfl (h.ne_own hc hn hz)
    · have hparent := (h.entry i m e hm he).parent
      rw [← heq, (h.entry id n e' hn he').parent] at hparent
      exact hparent ▸ hw.self

/-- Neither a node nor one of its entries is its parent. -/
theorem Within.not_parent (hw : Within id n zs) (h : DirTree s g) (hn : g.node id = some n) (hd : g.node d = some nd)
    (he : e ∈ nd.entries) (hid : e.2 = id) : d ∉ zs := by
  subst hid
  have hrank := (h.entry d nd e hd he).rank
  intro hin
  rcases hw.sub d hin with rfl | hz | ⟨e', he', rfl⟩
  · exact Nat.lt_irrefl _ hrank
  · exact h.ne_own hd hn hz rfl
  · exact Nat.lt_asymm hrank (h.entry e.2 n e' hn he').rank

/-- A node that is no entry of the directory in its parent field is no entry at all. -/
theorem DirTree.unlisted (h : DirTree s g) (hd : g.node d = some nd) (hparent : (s.zones id).parent = d)
    (hnot : ∀ e ∈ nd.entries, e.2 ≠ id) {i : Int} {m : Node} {e : Entry} (hm : g.node i = some m) (he : e ∈ m.entries) :
    e.2 ≠ id := by
  rintro rfl
  have hi := (h.entry i m e hm he).parent
  rw [hparent] at hi
  subst hi
  obtain rfl : nd = m := Option.some.inj (hd.symm.trans hm)
  exact hnot e he rfl

/-- `rm` frees the zones `zs`, and `rm_sub` takes out the entry of the last zone of the parent's chain. -/
theorem DirTree.erase_swap (h : DirTree s g) (hn : g.node id = some n) {es : List Entry} {rest : List Seg}
    (hd : g.node d = some (.dir es rest)) (he : e ∈ lastEntries es rest) (hid : e.2 = id) (hw : Within id n zs)
    {rm : FsM Unit} (hrm : wp (storeSem P) rm (fun _ s' => s.Frees zs s') s) {Q : Unit → Store → Prop}
    (hQ : ∀ nd' s' g', Erased s g d e (.dir es rest) nd' zs s' g' → DirTree s' g' → (Inv s g → Inv s' g') →
      (∀ i, i ≠ d → i ∉ rest.map Prod.fst → s'.zones i = s.zones i) →
      (∃ i, (entriesOf es rest)[i]? = some e ∧ nd'.entries = swapRemove (entriesOf es rest) i) → Q () s') :
    wp (storeSem P) (do rm; rmSub d id) Q s := by
  have hmem : e ∈ (Node.dir es rest).entries := lastEntries_subset e he
  have hentry := h.entry d _ e hd hmem
  refine wp_seq hrm fun _ s₁ hf => ?_
  have hchain : Chain s₁.zones dentry d es rest := hf.zones ▸ h.placed d _ hd
  refine wp_mono (hid ▸ rmSub_swap (h.length_rest hd) (h.le hd) hchain (h.nodup_zones hd) (h.ids d _ hd) he) ?_
  rintro - s₂ ⟨es', rest', hrem, hswap⟩
  -- The store where the entry is gone and nothing is freed yet.
  obtain ⟨t, htmap, htzones⟩ : ∃ t : Store, t.map = s.map ∧ t.zones = s₂.zones := ⟨⟨s.map, s₂.zones⟩, rfl, rfl⟩
  have htstate : ∀ z, t.state z = s.state z := fun z => by
    unfold Store.state
    rw [htmap]
  have hperm : (Node.dir es rest).entries.Perm (e :: (Node.dir es' rest').entries) := hrem.entries
  have hown : (Node.dir es' rest').own = (Node.dir es rest).own := hrem.ids
  have hids : ((e :: (Node.dir es' rest').entries).map Prod.snd).Nodup := (hperm.map _).nodup_iff.mp (h.ids d _ hd)
  have hplaced : Chain t.zones dentry d es' rest' := htzones ▸ hrem.chain
  have hrep : Replaced s g d (.dir es rest) (.dir es' rest') [] t := by
    refine ⟨hd, hplaced, rfl, .nil htstate, by rw [hown, List.append_nil], fun z hz hz' _ => ?_, ?_, fun e' he' => ?_,
      (List.nodup_cons.mp hids).2⟩
    · rw [htzones, hrem.frame z hz hz', hf.zones]
    · rw [htzones, hrem.head.parent, hf.zones]
    · exact h.entry d _ e' hd (hperm.mem_iff.mpr (List.mem_cons_of_mem _ he'))
  have htree := hrep.tree h
  have hinv : Inv s g → Inv t (g.set d (.dir es' rest')) := fun hinv => hrep.inv hinv hplaced (by
    rw [htzones, hrem.head.time, hf.zones]
    exact hinv.time d _ hd)
  have hfrees : t.Frees zs s₂ := by
    refine ⟨htzones.symm, fun z => ?_⟩
    have hmap : s₂.state z = s₁.state z := by
      unfold Store.state
      rw [hrem.map]
    rw [hmap, hf.state, htstate]
  have hidne : id ≠ d := fun heq => hw.not_parent h hn hd hmem hid (heq ▸ hw.self)
  have hn' : (g.set d (.dir es' rest')).node id = some n := (Image.node_set_of_ne hidne).trans hn
  have hparent : (t.zones id).parent = d := by
    rw [hrep.keeps h hidne hn id List.mem_cons_self, ← hid]
    exact hentry.parent
  have hnot : ∀ e' ∈ (Node.dir es' rest').entries, e'.2 ≠ id := fun e' he' heq => by
    refine (List.nodup_cons.mp hids).1 ?_
    rw [hid, ← heq]
    exact List.mem_map_of_mem he'
  have hvanish := hw.vanish htree hn' hfrees (hid ▸ hentry.ne) fun i m e' => htree.unlisted Image.node_set_self hparent hnot
  refine hQ _ s₂ _ ⟨hd, fun i => rfl, hw.not_parent h hn hd hmem hid, hid ▸ hw.self, hperm, hown, fun z => ?_⟩
    (hvanish.tree htree) (fun h' => hvanish.inv (hinv h')) (fun i hi hchain => ?_) hswap
  · rw [hfrees.state, htstate]
  · rw [hrem.frame i hi hchain, hf.zones]

end

/-! ## More data -/

/-- File `id` has more data, and has taken the zones `new` for it. -/
structure Extended (s : Store) (g : Image) (id : Int) (kids kids' : List Kid) (new : List Int) (s' : Store) (g' : Image) :
    Prop where
  file : g.node id = some (.file kids)
  node : ∀ i, g'.node i = if i = id then some (.file kids') else g.node i
  own : (Node.file kids').own.Perm ((Node.file kids).own ++ new)
  takes : s.Takes new s'

/-- `append` to a file takes what there is room for. -/
theorem extend_text {P : Policy} {s : Store} {g : Image} {id : Int} {kids : List Kid} {str : Str} {Q : Unit → Store → Prop}
    (hP : P.room = true) (h : Inv s g) (hid : g.node id = some (.file kids)) (hne : str ≠ []) (hnul : NulFree str)
    (hshort : str.length < 2 ^ 15)
    (hQ : ∀ kids' new s' g', Extended s g id kids kids' new s' g' → Inv s' g' →
      content kids' = content kids ++ str.take (min str.length (fileRoom kids)) → Q () s') :
    wp (storeSem P) (appendTo id (s.zones id) str) Q s := by
  have hrep := h.rep id _ hid
  refine wp_mono (appendTo_spec (k := 0) (h.le hid) (h.used hid) hrep.1 hne hnul hshort (Or.inl hP)) ?_
  rintro - s' ⟨len, kids', new, happ, -⟩
  have hreplaced : Replaced s g id (.file kids) (.file kids') new s' := by
    refine ⟨hid, happ.file.fileZones, rfl, happ.takes, happ.ids,
      fun z hz hz' hnew => happ.frame z (fun hin => ?_) hnew, happ.parent, nofun, List.nodup_nil⟩
    rcases List.mem_cons.mp hin with rfl | hin
    · exact hz rfl
    · cases hlast : kids.getLast? with
      | none =>
        rw [hlast] at hin
        cases hin
      | some t =>
        rw [hlast] at hin
        exact hz' (mem_ids_row (List.mem_of_getLast? hlast) (FileTree.lastPath_subset z hin))
  exact hQ kids' new s' _ ⟨hid, fun _ => rfl, happ.ids, happ.takes⟩ (hreplaced.inv h ⟨happ.file, happ.size⟩ happ.time)
    (happ.len_eq ▸ happ.text)

theorem extend_spec {P : Policy} {s : Store} {g : Image} {id : Int} {kids : List Kid} {str : Str} {Q : Unit → Store → Prop}
    (hP : P.room = true) (h : Inv s g) (hid : g.node id = some (.file kids)) (hne : str ≠ []) (hnul : NulFree str)
    (hshort : str.length < 2 ^ 15)
    (hQ : ∀ kids' new s' g', Extended s g id kids kids' new s' g' → Inv s' g' → Q () s') :
    wp (storeSem P) (appendTo id (s.zones id) str) Q s :=
  extend_text hP h hid hne hnul hshort fun kids' new s' g' hext hinv _ => hQ kids' new s' g' hext hinv

end MiniFs
