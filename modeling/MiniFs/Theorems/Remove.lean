import MiniFs.Theorems.AddData
import MiniFs.Theorems.Directory

/-! # Freeing the zones of files and directories

`rm_inode` frees a file with all of its zones. `rm_dentry` frees a directory with its chain, and of each entry
only the entry's own zone. -/

namespace MiniFs
open Interact Memory FileTree

/-! ## Loops over the trees of a file -/

/-- Do `g n` on each tree of level `n` of a row. -/
def eachKid (g : Nat → Int → FsM Unit) : List Kid → FsM Unit
  | [] => .ret ()
  | t :: row => do
    g t.1 t.2.id
    eachKid g row

theorem eachKid_append (g : Nat → Int → FsM Unit) (as bs : List Kid) :
    eachKid g (as ++ bs) = eachKid g as >>= fun _ => eachKid g bs := by
  induction as with
  | nil => rfl
  | cons a as ih =>
    rw [List.cons_append, eachKid, eachKid, ih]
    exact (Prog.bind_assoc _ _ _).symm

theorem eachKid_level {g : Nat → Int → FsM Unit} {n : Nat} {row : List Kid} (h : ∀ t ∈ row, t.1 = n) :
    eachKid g row = each (g n) (row.map (·.2.id)) := by
  induction row with
  | nil => rfl
  | cons t row ih =>
    obtain ⟨l, t⟩ := t
    obtain rfl : l = n := h ⟨l, t⟩ List.mem_cons_self
    rw [eachKid, List.map_cons, each, ih fun t ht => h t (List.mem_cons_of_mem _ ht)]

/-- The three loops over the pointers of an inode are one loop over its row. -/
theorem whilePtrs_eq {inode : Zone} {kids : List Kid} (hholds : Holds inode.ptr 24 (kids.map (·.2.id)))
    (hlevels : kids.map Sigma.fst = (List.range kids.length).map ptrLevel) (g : Nat → Int → FsM Unit) :
    (do
      if ← whileUsed inode.ptr (g 0) 20 0 then
        if ← whileUsed inode.ptr (g 1) 2 20 then
          let _ ← whileUsed inode.ptr (g 2) 2 22
          .ret ()
        else .ret ()
      else .ret () : FsM Unit) = eachKid g kids := by
  have hlen : kids.length ≤ 24 := by simpa using hholds.le
  have hlevel : ∀ i (h : i < kids.length), kids[i].1 = ptrLevel i := fun i h => by
    have hget := congrArg (fun l : List Nat => l[i]?) hlevels
    simpa [h] using hget
  have hpart : ∀ i m n, (∀ j, i ≤ j → j < i + m → ptrLevel j = n) → ∀ t ∈ (kids.drop i).take m, t.1 = n := by
    intro i m n hn t ht
    obtain ⟨j, hj, rfl⟩ := List.mem_iff_getElem.mp ht
    rw [List.length_take, List.length_drop] at hj
    rw [List.getElem_take, List.getElem_drop, hlevel (i + j) (by omega)]
    exact hn (i + j) (by omega) (by omega)
  have hloop : ∀ i m n, i + m ≤ 24 → (∀ j, i ≤ j → j < i + m → ptrLevel j = n) → whileUsed inode.ptr (g n) m i =
      eachKid g ((kids.drop i).take m) >>= fun _ => .ret (decide (i + m ≤ kids.length ∨ m = 0)) := by
    intro i m n him hn
    rw [whileUsed_eq hholds (g n) him, eachKid_level (hpart i m n hn), List.map_take, List.map_drop, List.length_map]
  rw [hloop 0 20 0 (by omega) (by decide +revert), hloop 20 2 1 (by omega) (by decide +revert),
    hloop 22 2 2 (by omega) (by decide +revert), List.drop_zero, Prog.bind_assoc]
  have hret : ∀ p : FsM Unit, (p >>= fun _ => .ret ()) = p := Prog.bind_ret
  by_cases h20 : 20 ≤ kids.length
  · have hd : decide (0 + 20 ≤ kids.length ∨ 20 = 0) = true := by simpa using h20
    by_cases h22 : 22 ≤ kids.length
    · have hd' : decide (20 + 2 ≤ kids.length ∨ 2 = 0) = true := by simpa using h22
      have hsplit : kids = kids.take 20 ++ ((kids.drop 20).take 2 ++ (kids.drop 22).take 2) := by
        have h1 : (kids.drop 22).take 2 = (kids.drop 20).drop 2 := by
          rw [List.drop_drop, List.take_of_length_le (by rw [List.length_drop]; omega)]
        rw [h1, List.take_append_drop, List.take_append_drop]
      conv_rhs => rw [hsplit, eachKid_append, eachKid_append]
      simp only [hd, hd', Prog.bind_assoc, Prog.ret_bind, if_true, hret]
    · have hd' : decide (20 + 2 ≤ kids.length ∨ 2 = 0) = false := by simpa using h22
      have hsplit : kids = kids.take 20 ++ (kids.drop 20).take 2 := by
        rw [List.take_of_length_le (l := kids.drop 20) (by rw [List.length_drop]; omega), List.take_append_drop]
      conv_rhs => rw [hsplit, eachKid_append]
      simp only [hd, hd', Prog.bind_assoc, Prog.ret_bind, if_true, Bool.false_eq_true, if_false, hret]
  · have hd : decide (0 + 20 ≤ kids.length ∨ 20 = 0) = false := by simpa using h20
    have hsplit : kids = kids.take 20 := (List.take_of_length_le (by omega)).symm
    conv_rhs => rw [hsplit]
    simp only [hd, Prog.bind_assoc, Prog.ret_bind, Bool.false_eq_true, if_false, hret]

/-! ## Freeing -/

/-- The zones `zs` are free; no other state and no zone has changed. -/
structure Store.Frees (s : Store) (zs : List Int) (s' : Store) : Prop where
  zones : s'.zones = s.zones
  state : ∀ z, s'.state z = if z ∈ zs then some unoccupied else s.state z

section
variable {P : Policy} {s s' s'' : Store}

theorem Store.Frees.nil : s.Frees [] s := ⟨rfl, fun z => by rw [if_neg List.not_mem_nil]⟩

theorem Store.Frees.trans {as bs : List Int} (h : s.Frees as s') (h' : s'.Frees bs s'') : s.Frees (as ++ bs) s'' := by
  refine ⟨h'.zones.trans h.zones, fun z => ?_⟩
  rw [h'.state, h.state]
  by_cases ha : z ∈ as <;> by_cases hb : z ∈ bs <;> simp [ha, hb]

theorem Store.Frees.congr {as bs : List Int} (h : s.Frees as s') (hab : ∀ z, z ∈ bs ↔ z ∈ as) : s.Frees bs s' :=
  ⟨h.zones, fun z => by rw [h.state]; simp only [hab]⟩

/-- A program that frees the zones `zs`, from any store with the same content. -/
def FreesZones (P : Policy) (zones : Int → Zone) (p : FsM Unit) (zs : List Int) : Prop :=
  ∀ s, s.zones = zones → wp (storeSem P) p (fun _ s' => s.Frees zs s') s

theorem freesZones_setFreeId {zones : Int → Zone} {id : Int} (h4 : 4 ≤ id) (hlt : id < 1024) :
    FreesZones P zones (Fs.setFreeId id) [id] := fun _ _ =>
  setFreeId_spec h4 hlt fun _ h => ⟨h.zones, fun z => by rw [h.state]; simp only [List.mem_singleton]⟩

theorem FreesZones.seq {zones : Int → Zone} {p q : FsM Unit} {as bs : List Int} (hp : FreesZones P zones p as)
    (hq : FreesZones P zones q bs) : FreesZones P zones (p >>= fun _ => q) (as ++ bs) := fun s hs =>
  wp_seq (hp s hs) fun _ s' h => wp_mono (hq s' (h.zones.trans hs)) fun _ _ h' => h.trans h'

theorem FreesZones.ret {zones : Int → Zone} : FreesZones P zones (.ret ()) [] := fun _ _ => wp_ret.mpr .nil

theorem FreesZones.each {α : Type} {zones : Int → Zone} {f : Int → FsM Unit} {own : α → List Int} {id : α → Int}
    {row : List α} (h : ∀ t ∈ row, FreesZones P zones (f (id t)) (own t)) :
    FreesZones P zones (each f (row.map id)) (row.flatMap own) := by
  induction row with
  | nil => exact .ret
  | cons t row ih => exact (h t List.mem_cons_self).seq (ih fun t ht => h t (List.mem_cons_of_mem _ ht))

theorem FreesZones.each_ids {zones : Int → Zone} {f : Int → FsM Unit} {ids : List Int}
    (h : ∀ z ∈ ids, FreesZones P zones (f z) [z]) : FreesZones P zones (MiniFs.each f ids) ids := by
  induction ids with
  | nil => exact .ret
  | cons z zs ih => exact (h z List.mem_cons_self).seq (ih fun y hy => h y (List.mem_cons_of_mem _ hy))

/-- `rm_idx_zone` at each level. -/
def rmLevel : Nat → Int → FsM Unit
  | 0 => Fs.setFreeId
  | n + 1 => rmIdxZoneAt (rmLevel n)

theorem rmIdxZone_eq (id : Int) : rmIdxZone id false = rmLevel 1 id ∧ rmIdxZone id true = rmLevel 2 id := ⟨rfl, rfl⟩

theorem rmLevel_spec {n : Nat} {zones : Int → Zone} {t : FileTree n} (h : t.Refs zones) (hlt : ∀ z ∈ t.ids, z < 1024) :
    FreesZones P zones (rmLevel n t.id) t.ids := by
  induction n with
  | zero => exact freesZones_setFreeId h (hlt _ List.mem_cons_self)
  | succ n ih =>
    obtain ⟨id, kids⟩ := t
    have hkids : FreesZones P zones (MiniFs.each (rmLevel n) (kids.map FileTree.id)) (kids.flatMap FileTree.ids) :=
      .each fun t ht => ih (h.2.2 t ht) fun z hz => hlt z (List.mem_cons_of_mem _ (List.mem_flatMap.mpr ⟨t, ht, hz⟩))
    intro s hs
    show wp (storeSem P) (rmIdxZoneAt (rmLevel n) id) _ s
    unfold rmIdxZoneAt
    refine wp_bind.mpr (readZone_spec h.1 ?_)
    dsimp only
    rw [hs]
    have hlen := h.2.1.le
    have hall : ((kids.map FileTree.id).drop 0).take 32 = kids.map FileTree.id := by
      rw [List.drop_zero, List.take_of_length_le hlen]
    rw [whileUsed_eq h.2.1 _ (show 0 + 32 ≤ 32 by omega), hall]
    refine wp_seq (freesZones_setFreeId h.1 (hlt _ List.mem_cons_self) s hs) fun _ s' hf => ?_
    refine wp_bind.mpr (wp_bind.mpr (wp_mono (hkids s' (hf.zones.trans hs)) fun _ s'' hf' => ?_))
    exact wp_ret.mpr (wp_ret.mpr (hf.trans hf'))

/-- The pointers of inode `id` refer to the row `kids`, whose index zones are on the disk, whatever its data zones hold. -/
structure FileZones (zones : Int → Zone) (id : Int) (kids : List Kid) : Prop where
  holds : Holds (zones id).ptr 24 (kids.map (·.2.id))
  levels : kids.map Sigma.fst = (List.range kids.length).map ptrLevel
  refs : ∀ t ∈ kids, t.2.Refs zones

theorem FileRep.fileZones {id : Int} {kids : List Kid} (h : FileRep s id kids) : FileZones s.zones id kids :=
  ⟨h.holds, h.levels, fun t ht => (h.rep t ht).refs⟩

theorem FileZones.congr {zones zones' : Int → Zone} {id : Int} {kids : List Kid} (h : FileZones zones id kids)
    (heq : ∀ z ∈ id :: kids.flatMap (·.2.ids), zones' z = zones z) : FileZones zones' id kids := by
  have hid : zones' id = zones id := heq id List.mem_cons_self
  refine ⟨hid ▸ h.holds, h.levels, fun t ht => (h.refs t ht).congr fun z hz => ?_⟩
  exact heq z (List.mem_cons_of_mem _ (mem_ids_row ht hz))

theorem FileZones.le_of_mem {zones : Int → Zone} {id : Int} {kids : List Kid} (h : FileZones zones id kids) :
    ∀ z ∈ kids.flatMap (·.2.ids), 4 ≤ z := by
  intro z hz
  obtain ⟨t, ht, hz⟩ := List.mem_flatMap.mp hz
  exact (h.refs t ht).le_of_mem z hz

/-- `rm_inode` frees the inode and all zones that its row of pointers refers to. -/
theorem rmInode_row {id : Int} {kids : List Kid} (h : FileZones s.zones id kids) (h4 : 4 ≤ id) (hlt : id < 1024)
    (hids : ∀ z ∈ kids.flatMap (·.2.ids), z < 1024) :
    wp (storeSem P) (rmInode id) (fun _ s' => s.Frees (id :: kids.flatMap (·.2.ids)) s') s := by
  obtain ⟨hholds, hlevels, hrefs⟩ := h
  have hkids : FreesZones P s.zones (eachKid rmLevel kids) (kids.flatMap (·.2.ids)) := by
    have hone : ∀ t ∈ kids, FreesZones P s.zones (rmLevel t.1 t.2.id) t.2.ids := fun t ht =>
      rmLevel_spec (hrefs t ht) fun z hz => hids z (mem_ids_row ht hz)
    clear hholds hlevels hrefs hids
    induction kids with
    | nil => exact .ret
    | cons t row ih => exact (hone t List.mem_cons_self).seq (ih fun t ht => hone t (List.mem_cons_of_mem _ ht))
  unfold rmInode
  refine wp_bind.mpr (readZone_spec h4 ?_)
  dsimp only
  have hloop := whilePtrs_eq hholds hlevels rmLevel
  refine wp_seq (freesZones_setFreeId h4 hlt s rfl) fun _ s' hf => ?_
  refine (congrArg (fun p => wp (storeSem P) p _ s') hloop).mpr ?_
  exact wp_mono (hkids s' hf.zones) fun _ _ hf' => hf.trans hf'

/-- The inode `id` refers to the row `kids`, whose pointers and index zones are filled in order. Of what it owns no zone
    is named twice, and each has a cell in the bitmap. -/
structure InodeRep (zones : Int → Zone) (id : Int) (kids : List Kid) : Prop where
  holds : Holds (zones id).ptr 24 (kids.map (·.2.id))
  levels : kids.map Sigma.fst = (List.range kids.length).map ptrLevel
  refs : ∀ t ∈ kids, t.2.Refs zones
  wide : ∀ t ∈ kids.dropLast, t.2.Wide
  nodup : (id :: kids.flatMap (·.2.ids)).Nodup
  bounds : ∀ z ∈ id :: kids.flatMap (·.2.ids), 4 ≤ z ∧ z < 1024

/-- `rm_inode` frees the inode and what it owns, which are as many zones as `update_size` has counted, and nothing else. -/
theorem rm_inode_exact (s : Store) (id : Int) (kids : List Kid) (h : InodeRep s.zones id kids) :
    wp (storeSem P)
      (do
        let size ← updateSize (s.zones id)
        rmInode id
        .ret size)
      (fun size s' => (∀ z, s'.state z = if z ∈ id :: kids.flatMap (·.2.ids) then some unoccupied else s.state z) ∧
        s'.zones = s.zones ∧ size = (id :: kids.flatMap (·.2.ids)).toFinset.card) s := by
  have hid := h.bounds id List.mem_cons_self
  refine wp_seq (updateSize_row h.holds h.levels h.refs h.wide) ?_
  rintro size t ⟨rfl, hsize⟩
  refine wp_seq (rmInode_row ⟨h.holds, h.levels, h.refs⟩ hid.1 hid.2 fun z hz =>
    (h.bounds z (List.mem_cons_of_mem _ hz)).2) ?_
  rintro - s' hf
  refine wp_ret.mpr ⟨hf.state, hf.zones, ?_⟩
  rw [List.toFinset_card_of_nodup h.nodup, List.length_cons, hsize]
  omega

/-- A disk with an inode of one data zone. -/
def shortFile : Store where
  map := .zero
  zones id := if id = 5 then Zone.setPtr .zero 0 6 else .zero

theorem shortFile_rep : InodeRep shortFile.zones 5 [⟨0, (6, [])⟩] where
  holds :=
    have hempty : Holds (Zone.ptr .zero) 24 [] := .nil fun _ _ => Bytes.int16_zero _
    hempty.concat (by decide) (by decide) (Zone.ptr_setPtr_self (by decide) ⟨by decide, by decide⟩)
      fun _ _ hi => Zone.ptr_setPtr_of_ne hi
  levels := rfl
  refs t ht := by
    rw [List.mem_singleton.mp ht]
    show (4 : Int) ≤ 6
    decide
  wide := nofun
  nodup := by decide
  bounds := by decide

theorem rm_inode_exact_short :
    wp (storeSem ⟨false, false⟩)
      (do
        let size ← updateSize (shortFile.zones 5)
        rmInode 5
        .ret size)
      (fun size s' => (∀ z, s'.state z = if z ∈ [5, 6] then some unoccupied else shortFile.state z) ∧
        s'.zones = shortFile.zones ∧ size = 2) shortFile :=
  rm_inode_exact shortFile 5 [⟨0, (6, [])⟩] shortFile_rep

/-- One call of `rm_dir_zone` frees the zone and those of its entries. -/
theorem rmDirAt_step {L : Layout} {z : Int} {es : List Entry} {cont : Int → FsM Unit} {Q : Unit → Store → Prop} (hL : L.Ok)
    (h : Entries L (s.zones z) es) (hids : ∀ i ∈ z :: es.map Prod.snd, 4 ≤ i ∧ i < 1024)
    (hQ : ∀ s', s.Frees (z :: es.map Prod.snd) s' →
      wp (storeSem P) (if es.length = L.subs ∧ L.next (s.zones z) ≠ 0 then cont (L.next (s.zones z)) else .ret ()) Q s') :
    wp (storeSem P) (rmDirAt L cont z) Q s := by
  have hz := hids z List.mem_cons_self
  have hes : FreesZones P s.zones (MiniFs.each Fs.setFreeId (es.map Prod.snd)) (es.map Prod.snd) := .each_ids fun i hi => by
    have hi' := hids i (List.mem_cons_of_mem _ hi)
    exact freesZones_setFreeId hi'.1 hi'.2
  have hall : ((es.map Prod.snd).drop 0).take L.subs = es.map Prod.snd := by
    rw [List.drop_zero, List.take_of_length_le (by rw [List.length_map]; exact h.le)]
  have hpos := hL.pos
  have hle := h.le
  unfold rmDirAt
  refine wp_bind.mpr (readZone_spec hz.1 ?_)
  dsimp only
  rw [whileUsed_eq h.holds _ (show 0 + L.subs ≤ L.subs by omega), hall, List.length_map]
  refine wp_seq (freesZones_setFreeId hz.1 hz.2 s rfl) fun _ s₁ hf => ?_
  refine wp_bind.mpr (wp_bind.mpr (wp_mono (hes s₁ hf.zones) fun _ s₂ hf' => wp_ret.mpr ?_))
  have hgoal := hQ s₂ (hf.trans hf')
  by_cases hfull : es.length = L.subs
  · have hd : decide (0 + L.subs ≤ es.length ∨ L.subs = 0) = true := by simp [hfull]
    rw [if_pos hd]
    simpa [hfull] using hgoal
  · have hd : ¬decide (0 + L.subs ≤ es.length ∨ L.subs = 0) = true := by
      rw [decide_eq_true_iff]
      omega
    rw [if_neg hd]
    rwa [if_neg fun hc => hfull hc.1] at hgoal

/-- The zones that `rm_dentry` frees: the chain, and of every entry its own zone. -/
def chainIds (z : Int) (es : List Entry) : List Seg → List Int
  | [] => z :: es.map Prod.snd
  | seg :: rest => z :: es.map Prod.snd ++ chainIds seg.1 seg.2 rest

/-- `rm_dir_zone` along the chain. -/
theorem rmDirAt_spec {L : Layout} {z : Int} {es : List Entry} {rest : List Seg} {fuel : Nat} (hL : L.Ok)
    (hfuel : rest.length < fuel) (h : Chain s.zones L z es rest) (hids : ∀ i ∈ chainIds z es rest, 4 ≤ i ∧ i < 1024) :
    wp (storeSem P) (rmDirAt L (rmDirZone fuel) z) (fun _ s' => s.Frees (chainIds z es rest) s') s := by
  induction rest generalizing s L z es fuel with
  | nil =>
    refine rmDirAt_step hL h.1 hids fun s' hf => ?_
    rw [if_neg fun hc => hc.2 h.2]
    exact wp_ret.mpr hf
  | cons seg rest ih =>
    obtain ⟨hentries, hfull, hnext, hseg, hrest⟩ := h
    obtain ⟨fuel, rfl⟩ := Nat.exists_eq_succ_of_ne_zero (by omega : fuel ≠ 0)
    refine rmDirAt_step hL hentries (fun i hi => hids i (List.mem_append_left _ hi)) fun s' hf => ?_
    rw [if_pos ⟨hfull, by rw [hnext]; omega⟩, hnext]
    have hrest' : Chain s'.zones dirZone seg.1 seg.2 rest := hf.zones ▸ hrest
    refine wp_mono (ih dirZone_ok (by simpa using hfuel) hrest' fun i hi => hids i (List.mem_append_right _ hi)) ?_
    exact fun _ _ hf' => hf.trans hf'

/-- `rm_dentry` on a directory -/
theorem rmDentry_spec {d : Int} {es : List Entry} {rest : List Seg} (hlen : rest.length < zoneFuel)
    (h : Chain s.zones dentry d es rest) (hids : ∀ i ∈ chainIds d es rest, 4 ≤ i ∧ i < 1024) :
    wp (storeSem P) (rmDentry d) (fun _ s' => s.Frees (chainIds d es rest) s') s := rmDirAt_spec dentry_ok hlen h hids

/-- `rm_inode` on a directory without entries: the pointers are the bytes of free slots. -/
theorem rmInode_dir {d : Int} (h4 : 4 ≤ d) (hlt : d < 1024) (h : Entries dentry (s.zones d) []) :
    wp (storeSem P) (rmInode d) (fun _ s' => s.Frees [d] s') s := by
  have hptr : (s.zones d).ptr 0 = 0 := by
    obtain ⟨-, hzero⟩ := h.slot 0 (by decide)
    have h0 : (s.zones d).get 8 = 0 := hzero 0 (by omega)
    have h1 : (s.zones d).get 9 = 0 := hzero 1 (by omega)
    show int16Of ((s.zones d).get 8) ((s.zones d).get 9) = 0
    rw [h0, h1]
    rfl
  unfold rmInode
  refine wp_bind.mpr (readZone_spec h4 (wp_seq (freesZones_setFreeId h4 hlt s rfl) fun _ s' hf => ?_))
  have hstop : whileUsed (s.zones d).ptr Fs.setFreeId 20 0 = .ret false := by
    unfold whileUsed
    rw [if_pos hptr]
  rw [hstop]
  exact wp_bind.mpr (wp_ret.mpr (wp_ret.mpr hf))

/-- `rm_dentry` on a small file: its size stands where the first slot has its id, and is no zone that can be
    freed; the second slot lies in free pointers. -/
theorem rmDentry_file {id : Int} {kids : List Kid} (h4 : 4 ≤ id) (hlt : id < 1024) (h : FileRep s id kids)
    (hsize : (s.zones id).size = 1 + kids.length) (hlen : kids.length ≤ 2) :
    wp (storeSem P) (rmDentry id) (fun _ s' => s.Frees [id] s') s := by
  have h0 : dentry.subId (s.zones id) 0 = 1 + kids.length := hsize
  have h1 : dentry.subId (s.zones id) 1 = 0 := by
    show (s.zones id).ptr 5 = 0
    exact h.holds.free 5 (by rw [List.length_map]; omega) (by omega)
  unfold rmDentry rmDirAt
  refine wp_bind.mpr (readZone_spec h4 (wp_seq (freesZones_setFreeId h4 hlt s rfl) fun _ s' hf => ?_))
  have hloop : whileUsed (dentry.subId (s.zones id)) Fs.setFreeId dentry.subs 0 =
      Fs.setFreeId (1 + kids.length) >>= fun _ => .ret false := by
    show whileUsed _ _ (3 + 1) 0 = _
    unfold whileUsed
    rw [if_neg (by rw [h0]; omega), h0]
    unfold whileUsed
    rw [if_pos h1]
  rw [hloop]
  exact wp_bind.mpr (wp_bind.mpr (setFreeId_null (by omega) (wp_ret.mpr (wp_ret.mpr hf))))

end

end MiniFs
