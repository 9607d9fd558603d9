import MiniFs.Theorems.Append

/-! # Appending to a file

The pointers of an inode are a row of trees. `add_data` lets the row take the string, and `update_size` counts
the zones that the file then owns. -/

namespace MiniFs
open Interact Memory FileTree

/-- The level of what pointer `i` refers to: 20 data zones, 2 index zones, 2 index zones of index zones. -/
def ptrLevel (i : Nat) : Nat := if i < 20 then 0 else if i < 22 then 1 else 2

/-- The pointers of the inode are the row, with `m` pointers free after it. -/
structure Ptrs (inode : Zone) (row : List Kid) (m : Nat) : Prop where
  holds : Holds inode.ptr 24 (row.map (·.2.id))
  slots : row.length + m = 24

section
variable {nb : Nat} {P : Policy} {s s' : Store nb}

/-! ## The size of a file -/

/-- `update_size_idx` at each level; a data zone counts as one. -/
def sizeLevel : Nat → Int → FsM Int
  | 0 => fun _ => .ret 1
  | n + 1 => updateSizeIdxAt (sizeLevel n)

theorem updateSizeIdx_eq (id : Int) :
    updateSizeIdx id false = sizeLevel 1 id ∧ updateSizeIdx id true = sizeLevel 2 id := ⟨rfl, rfl⟩

/-- The loop of `update_size_idx` over the entries from `i` on. -/
theorem updateSizeIdx_go {zone : Zone} {n m i : Nat} {kids : List (FileTree n)} {f : Int → FsM Int} {size : Int}
    {Q : Int → Store nb → Prop} (hholds : Holds zone.idx 32 (kids.map FileTree.id)) (hi : i + m = 32)
    (hf : ∀ t ∈ kids, ∀ R : Int → Store nb → Prop, R t.ids.length s → wp (storeSem P) (f t.id) R s)
    (h : Q (size + ((kids.drop i).flatMap FileTree.ids).length) s) :
    wp (storeSem P) (updateSizeIdxAt.go f zone m i size) Q s := by
  have hlen := hholds.le
  rw [List.length_map] at hlen
  induction m generalizing i size with
  | zero =>
    unfold updateSizeIdxAt.go
    rw [List.drop_eq_nil_of_le (by omega)] at h
    simpa using h
  | succ m ih =>
    unfold updateSizeIdxAt.go
    by_cases hlt : i < kids.length
    · have hid : zone.idx i = kids[i].id := (hholds.used i (by simpa using hlt)).trans (List.getElem_map ..)
      have hne : ¬zone.idx i = 0 := by
        rw [hholds.eq_zero_iff (by omega), List.length_map]
        omega
      rw [if_neg hne, hid]
      refine wp_bind.mpr (hf _ (List.getElem_mem hlt) _ (ih (by omega) ?_))
      rw [List.drop_eq_getElem_cons hlt, List.flatMap_cons, List.length_append] at h
      rwa [Nat.cast_add, ← Int.add_assoc] at h
    · have hz : zone.idx i = 0 := hholds.free i (by simpa using hlt) (by omega)
      rw [if_pos hz]
      rw [List.drop_eq_nil_of_le (by omega)] at h
      exact wp_ret.mpr (by simpa using h)

/-- The number that `update_size_idx` returns is the number of zones of the tree. -/
theorem sizeLevel_spec {n : Nat} {t : FileTree n} (h : t.Refs s.zones) {Q : Int → Store nb → Prop} (hQ : Q t.ids.length s) :
    wp (storeSem P) (sizeLevel n t.id) Q s := by
  induction n generalizing Q with
  | zero => exact wp_ret.mpr hQ
  | succ n ih =>
    obtain ⟨id, kids⟩ := t
    show wp (storeSem P) (updateSizeIdxAt (sizeLevel n) id) Q s
    unfold updateSizeIdxAt
    refine wp_bind.mpr (readZone_spec h.1 ?_)
    refine updateSizeIdx_go h.2.1 rfl (fun t ht R hR => ih (h.2.2 t ht) hR) ?_
    have hlen : (FileTree.ids (n := n + 1) (id, kids)).length = 1 + (kids.flatMap FileTree.ids).length := by
      simp [FileTree.ids, Nat.add_comm]
    rw [hlen] at hQ
    simpa using hQ

/-- The zones of a full tree. -/
def fullIds : Nat → Nat
  | 0 => 1
  | n + 1 => 1 + 32 * fullIds n

theorem FileTree.Wide.length_ids {n : Nat} {t : FileTree n} (h : t.Wide) : t.ids.length = fullIds n := by
  induction n with
  | zero => rfl
  | succ n ih =>
    obtain ⟨id, kids⟩ := t
    obtain ⟨hlen, hwide⟩ := h
    show (id :: kids.flatMap FileTree.ids).length = 1 + 32 * fullIds n
    rw [List.length_cons, length_flatMap_const fun t ht => ih (hwide t ht), hlen, Nat.add_comm]

theorem FileTree.Full.length_ids {n : Nat} {t : FileTree n} (h : t.Full) : t.ids.length = fullIds n := h.wide.length_ids

/-- The zones of the first `i` trees of a row when they are full. -/
def fullRow : Nat → Nat
  | 0 => 0
  | i + 1 => fullRow i + fullIds (ptrLevel i)

theorem length_ids_wide {row : List Kid} (hl : row.map Sigma.fst = (List.range row.length).map ptrLevel)
    (hwide : ∀ t ∈ row, t.2.Wide) : (row.flatMap (·.2.ids)).length = fullRow row.length := by
  induction row using List.reverseRecOn with
  | nil => rfl
  | append_singleton init last ih =>
    rw [List.length_append, List.length_singleton] at hl
    obtain ⟨hinit, hlast⟩ := levels_split hl
    rw [flatMap_concat, List.length_append, ih hinit fun t ht => hwide t (List.mem_append_left _ ht),
      (hwide last (by simp)).length_ids, hlast, List.length_append, List.length_singleton]
    rfl

theorem length_ids_full {row : List Kid} (hl : row.map Sigma.fst = (List.range row.length).map ptrLevel)
    (hfull : ∀ t ∈ row, t.2.Full) : (row.flatMap (·.2.ids)).length = fullRow row.length :=
  length_ids_wide hl fun t ht => (hfull t ht).wide

theorem countPtrs_eq {inode : Zone} {ids : List Int} (h : Holds inode.ptr 24 ids) {n i : Nat} (hn : i + n = 20)
    (hlen : ids.length ≤ 20) : countPtrs inode n i = ids.length - i := by
  induction n generalizing i with
  | zero => exact (Nat.sub_eq_zero_of_le (by omega)).symm
  | succ n ih =>
    unfold countPtrs
    by_cases hlt : i < ids.length
    · rw [if_pos (by rw [ne_eq, h.eq_zero_iff (by omega)]; omega), ih (by omega)]
      omega
    · rw [if_neg (by rw [ne_eq, h.eq_zero_iff (by omega)]; omega)]
      omega

/-- `update_size` counts the inode and the zones of its row. -/
theorem updateSize_spec {inode : Zone} {init : List Kid} {last : Kid} {m : Nat} (hp : Ptrs inode (init ++ [last]) m)
    (hl : (init ++ [last]).map Sigma.fst = (List.range (init.length + 1)).map ptrLevel) (hrep : last.2.Refs s.zones)
    (hwide : ∀ t ∈ init, t.2.Wide) {Q : Int → Store nb → Prop}
    (hQ : Q (1 + ((init ++ [last]).flatMap (·.2.ids)).length) s) : wp (storeSem P) (updateSize inode) Q s := by
  have hslots := hp.slots
  have hzero : ∀ i < 24, inode.ptr i ≠ 0 ↔ i ≤ init.length := by
    intro i hi
    rw [ne_eq, hp.holds.eq_zero_iff hi, List.length_map, List.length_append, List.length_singleton]
    omega
  have hptr : inode.ptr init.length = last.2.id := by simpa using hp.holds.used init.length (by simp)
  rw [List.length_append, List.length_singleton] at hslots
  obtain ⟨hlinit, hlevel⟩ := levels_split hl
  have hinit := length_ids_wide hlinit hwide
  rw [flatMap_concat, List.length_append, hinit] at hQ
  have hcase : ∀ n i (c : Nat), init.length = i → ptrLevel i = n → 1 + fullRow i = c →
      wp (storeSem P) (do .ret (c + (← sizeLevel n (inode.ptr i)))) Q s := by
    rintro n i c rfl rfl rfl
    rw [hptr, ← hlevel]
    refine wp_bind.mpr (sizeLevel_spec hrep (wp_ret.mpr ?_))
    rw [Nat.cast_add, ← Int.add_assoc] at hQ
    rwa [Nat.cast_add, Nat.cast_one]
  unfold updateSize
  -- One case for each of the four indirect pointers, and one for the direct pointers.
  by_cases h23 : init.length = 23
  · rw [if_pos ((hzero 23 (by omega)).mpr (by omega))]
    exact hcase 2 23 1144 h23 rfl rfl
  rw [if_neg (by rw [hzero 23 (by omega)]; omega)]
  by_cases h22 : init.length = 22
  · rw [if_pos ((hzero 22 (by omega)).mpr (by omega))]
    exact hcase 2 22 87 h22 rfl rfl
  rw [if_neg (by rw [hzero 22 (by omega)]; omega)]
  by_cases h21 : init.length = 21
  · rw [if_pos ((hzero 21 (by omega)).mpr (by omega))]
    exact hcase 1 21 54 h21 rfl rfl
  rw [if_neg (by rw [hzero 21 (by omega)]; omega)]
  by_cases h20 : init.length = 20
  · rw [if_pos ((hzero 20 (by omega)).mpr (by omega))]
    exact hcase 1 20 21 h20 rfl rfl
  rw [if_neg (by rw [hzero 20 (by omega)]; omega), countPtrs_eq hp.holds rfl (by simp; omega)]
  have hdirect : ∀ i ≤ 20, fullRow i = i := by decide
  have hone : last.2.ids.length = 1 := by
    obtain ⟨l, t⟩ := last
    have hl0 : l = 0 := hlevel.trans (if_pos (by omega))
    subst hl0
    rfl
  rw [hone, hdirect _ (by omega)] at hQ
  exact wp_ret.mpr (by simpa using hQ)

/-- `update_size` on any row of which all but the last tree have no free entry. -/
theorem updateSize_row {id : Int} {kids : List Kid} (hholds : Holds (s.zones id).ptr 24 (kids.map (·.2.id)))
    (hlevels : kids.map Sigma.fst = (List.range kids.length).map ptrLevel) (hrefs : ∀ t ∈ kids, t.2.Refs s.zones)
    (hwide : ∀ t ∈ kids.dropLast, t.2.Wide) :
    wp (storeSem P) (updateSize (s.zones id)) (fun size s' => s' = s ∧ size = 1 + (kids.flatMap (·.2.ids)).length) s := by
  rcases List.eq_nil_or_concat' kids with rfl | ⟨init, last, rfl⟩
  · have hzero : ∀ i < 24, ¬(s.zones id).ptr i ≠ 0 := fun i hi => not_not.mpr (hholds.free i (Nat.zero_le _) hi)
    unfold updateSize
    rw [if_neg (hzero 23 (by omega)), if_neg (hzero 22 (by omega)), if_neg (hzero 21 (by omega)),
      if_neg (hzero 20 (by omega)),
      countPtrs_eq hholds rfl (Nat.zero_le _)]
    exact wp_ret.mpr ⟨rfl, rfl⟩
  · have hle : ((init ++ [last]).map (·.2.id)).length ≤ 24 := hholds.le
    rw [List.length_map, List.length_append, List.length_singleton] at hle
    rw [List.length_append, List.length_singleton] at hlevels
    refine updateSize_spec (m := 23 - init.length) ⟨hholds, ?_⟩ hlevels (hrefs last (by simp))
      (fun t ht => hwide t (by rwa [List.dropLast_concat])) ⟨rfl, rfl⟩
    rw [List.length_append, List.length_singleton]
    omega

/-! ## `add_data` -/

/-- `add_data` writes to the last tree of the row. -/
theorem addDataLast_eq {inode : Zone} {init : List Kid} {last : Kid} {m : Nat} (hp : Ptrs inode (init ++ [last]) m)
    (hlevel : last.1 = ptrLevel init.length) (str : Str) :
    addDataLast inode str = wrtLevel last.1 last.2.id str >>= fun len => .ret (inode, init.length, len) := by
  have hslots := hp.slots
  have hzero : ∀ i < 24, inode.ptr i ≠ 0 ↔ i ≤ init.length := by
    intro i hi
    rw [ne_eq, hp.holds.eq_zero_iff hi, List.length_map, List.length_append, List.length_singleton]
    omega
  have hptr : inode.ptr init.length = last.2.id := by simpa using hp.holds.used init.length (by simp)
  rw [List.length_append, List.length_singleton] at hslots
  have hcase : ∀ n i, init.length = i → ptrLevel i = n →
      (wrtLevel last.1 last.2.id str >>= fun len => .ret (inode, init.length, len) : FsM (Zone × Nat × Int)) =
        wrtLevel n (inode.ptr i) str >>= fun len => .ret (inode, i, len) := by
    rintro n i rfl rfl
    rw [hptr, ← hlevel]
  unfold addDataLast
  by_cases h23 : init.length = 23
  · rw [if_pos ((hzero 23 (by omega)).mpr (by omega)), hcase 2 23 h23 rfl]
    rfl
  rw [if_neg (by rw [hzero 23 (by omega)]; omega)]
  by_cases h22 : init.length = 22
  · rw [if_pos ((hzero 22 (by omega)).mpr (by omega)), hcase 2 22 h22 rfl]
    rfl
  rw [if_neg (by rw [hzero 22 (by omega)]; omega)]
  by_cases h21 : init.length = 21
  · rw [if_pos ((hzero 21 (by omega)).mpr (by omega)), hcase 1 21 h21 rfl]
    rfl
  rw [if_neg (by rw [hzero 21 (by omega)]; omega)]
  by_cases h20 : init.length = 20
  · rw [if_pos ((hzero 20 (by omega)).mpr (by omega)), hcase 1 20 h20 rfl]
    rfl
  rw [if_neg (by rw [hzero 20 (by omega)]; omega)]
  have hfirst : firstZone (decide (inode.ptr 0 = 0)) str = .ret none := by
    have := (hzero 0 (by omega)).mpr (by omega)
    unfold firstZone
    rw [if_neg (by simp [this])]
  have hlast : lastNonzero inode.ptr 19 = init.length := by
    rw [lastNonzero_eq hp.holds (by omega) (by simp; omega)]
    simp
  have hlvl : ptrLevel init.length = 0 := by rw [ptrLevel, if_pos (by omega)]
  rw [hfirst, hcase 0 init.length rfl hlvl]
  show (wrtData (inode.ptr (lastNonzero inode.ptr 19)) str >>= fun len =>
    (.ret (inode, lastNonzero inode.ptr 19, len) : FsM (Zone × Nat × Int))) = _
  rw [hlast]
  rfl

/-- There are no more zones than the bitmap has states for. -/
theorem length_le_of_used [Sized nb] {ids : List Int} (hnodup : ids.Nodup) (h : ∀ z ∈ ids, 0 ≤ z ∧ s.Used z) :
    ids.length ≤ 4 * nb := by
  have hmap : (ids.map Int.toNat).Nodup := hnodup.map_on fun a ha b hb hab => by
    have := (h a ha).1
    have := (h b hb).1
    omega
  have hsub : ids.map Int.toNat ⊆ List.range (4 * nb) := by
    intro i hi
    obtain ⟨z, hz, rfl⟩ := List.mem_map.mp hi
    obtain ⟨h0, b, hb, -⟩ := h z hz
    have := Store.lt_zones hb
    exact List.mem_range.mpr (by omega)
  have := (hmap.subperm hsub).length_le
  rwa [List.length_map, List.length_range] at this

theorem FileTree.Refs.le_of_mem {n : Nat} {zones : Int → Zone} {t : FileTree n} (h : t.Refs zones) :
    ∀ z ∈ t.ids, 4 ≤ z := by
  induction n with
  | zero =>
    intro z hz
    rw [List.mem_singleton.mp hz]
    exact h
  | succ n ih =>
    intro z hz
    rcases List.mem_cons.mp hz with rfl | hz
    · exact h.1
    · obtain ⟨k, hk, hz⟩ := List.mem_flatMap.mp hz
      exact ih (h.2.2 k hk) z hz

/-- What `add_data` leaves: the pointers of the inode are the grown row, and the size is that of the file. -/
structure AddedData (s : Store nb) (inode : Zone) (init : List Kid) (last : Kid) (m : Nat) (str : Str) (len : Nat)
    (s' : Store nb) (inode' : Zone) (kids' : List Kid) (new : List Int) : Prop where
  holds : Holds inode'.ptr 24 (kids'.map (·.2.id))
  size : inode'.size = 1 + (kids'.flatMap (·.2.ids)).length
  parent : inode'.parent = inode.parent
  time : inode'.time < 2 ^ 63
  grown : Grown [] s ptrLevel init last m str len s' kids' new

section
variable {inode : Zone} {init : List Kid} {last : Kid} {m k : Nat} {str : Str}

/-- The last call of `add_data` sets the size and the time. -/
theorem addData_last [hn : Sized nb] {last' : FileTree last.1} {len : Nat} {new : List Int}
    (hp : Ptrs inode (init ++ [last]) m) (h : Growing P s ptrLevel init last m str k)
    (hw : Wrote s last.2 str len s' last' new) (hend : m = 0 ∨ len = str.length) {Q : Zone → Store nb → Prop}
    (hQ : ∀ inode' kids', AddedData s inode init last m str len s' inode' kids' new → Q inode' s') :
    wp (storeSem P)
      (do
        let size ← updateSize inode
        let now ← Fs.time
        .ret ((inode.setSize size).setTime now)) Q s' := by
  have hmap : (init ++ [(⟨_, last'⟩ : Kid)]).map (·.2.id) = (init ++ [last]).map (·.2.id) := by simp [hw.id]
  have hp' : Ptrs inode (init ++ [⟨_, last'⟩]) m := ⟨by rw [hmap]; exact hp.holds, by simpa using hp.slots⟩
  have hgrown := h.finish hw hend
  have hle : ((init ++ [(⟨_, last'⟩ : Kid)]).flatMap (·.2.ids)).length ≤ 4 * nb := by
    refine length_le_of_used (s := s') (hw.ids_row.nodup_iff.mpr (hw.takes.nodup_append h.nodup h.used)) fun z hz => ?_
    obtain ⟨t, ht, hzt⟩ := List.mem_flatMap.mp hz
    have h4 := (h.rep_after hw t ht).refs.le_of_mem z hzt
    exact ⟨by omega, hw.takes.used_append h.used z (hw.ids_row.mem_iff.mp hz)⟩
  refine wp_bind.mpr (updateSize_spec hp' (levels_concat h.levels last') hw.rep.refs (fun t ht => (h.full t ht).wide) ?_)
  refine wp_bind.mpr (time_spec fun t ht => wp_ret.mpr (hQ _ _ ⟨?_, ?_, ?_, ?_, hgrown⟩))
  · exact hp'.holds.congr fun i hi => by rw [Zone.ptr_setTime hi, Zone.ptr_setSize]
  · have := hn.lt
    rw [Zone.size_setTime, Zone.size_setSize ⟨by omega, by omega⟩]
  · rw [Zone.parent_setTime, Zone.parent_setSize]
  · rw [Zone.time_setTime]
    exact ht

theorem Ptrs.grow {last' : FileTree last.1} {len : Nat} {new : List Int} {nId : Int} {s'' : Store nb}
    (hp : Ptrs inode (init ++ [last]) (m + 1)) (hw : Wrote s last.2 str len s' last' new) (hf : Fresh s' nId s'') :
    Ptrs (inode.setPtr (init.length + 1) nId)
      (init ++ [⟨_, last'⟩] ++ [⟨_, FileTree.new (ptrLevel (init.length + 1)) nId⟩]) m := by
  have hslots := hp.slots
  rw [List.length_append, List.length_singleton] at hslots
  have hlen : ((init ++ [last]).map (·.2.id)).length = init.length + 1 := by simp
  have hmap : (init ++ [(⟨_, last'⟩ : Kid)]).map (·.2.id) = (init ++ [last]).map (·.2.id) := by simp [hw.id]
  refine ⟨?_, by simp; omega⟩
  rw [List.map_append, List.map_singleton, id_new, hmap]
  refine hp.holds.concat (by omega) hf.ne_zero ?_ fun i _ hi => ?_
  · rw [hlen]
    exact Zone.ptr_setPtr_self (by omega) hf.fits
  · rw [hlen] at hi
    exact Zone.ptr_setPtr_of_ne hi

/-- A call of `add_data` writes to the last tree first. -/
theorem addData_round [Sized nb] {fuel : Nat} {Q : Zone → Store nb → Prop} (hp : Ptrs inode (init ++ [last]) m)
    (h : Growing P s ptrLevel init last m str k)
    (hf : ∀ (len : Nat) (last' : FileTree last.1) (new : List Int) (s' : Store nb), len ≤ str.length →
      Wrote s last.2 str len s' last' new →
      s'.Room P (needFrom ptrLevel m (init.length + 1) (str.length - last.2.room) + k) →
        wp (storeSem P)
          (if str.drop len ≠ [] ∧ init.length < 23 then do
            let id ← Fs.getFreeId fOccupied
            if id ≥ 0 then
              Fs.writeZone id .zero
              addData fuel (inode.setPtr (init.length + 1) id) (str.drop len)
            else .ret inode
          else do
            let size ← updateSize inode
            let now ← Fs.time
            .ret ((inode.setSize size).setTime now)) Q s') :
    wp (storeSem P) (addData (fuel + 1) inode str) Q s := by
  unfold addData
  rw [addDataLast_eq hp h.level]
  refine wp_bind.mpr (wp_bind.mpr (wp_mono (wrtLevel_spec _ s last.2 str _ h.writable) ?_))
  rintro r s' ⟨len, last', new, rfl, hwrote, hroom⟩
  have hle : len ≤ str.length := by have := hwrote.len_eq; omega
  refine wp_ret.mpr ?_
  dsimp only
  rw [strAt_eq hle]
  exact wp_bind.mpr (wp_ret.mpr (hf len last' new s' hle hwrote hroom))

/-- `add_data` on a file with data, by induction on the pointers that are left. -/
theorem addData_spec [Sized nb] {fuel : Nat} (hfuel : m < fuel) (hp : Ptrs inode (init ++ [last]) m)
    (h : Growing P s ptrLevel init last m str k) :
    wp (storeSem P) (addData fuel inode str)
      (fun inode' s' => ∃ (len : Nat) (kids' : List Kid) (new : List Int),
        AddedData s inode init last m str len s' inode' kids' new ∧ s'.Room P k) s := by
  induction m generalizing s inode init last str fuel with
  | zero =>
    obtain ⟨fuel, rfl⟩ := Nat.exists_eq_succ_of_ne_zero (by omega : fuel ≠ 0)
    have hslots := hp.slots
    rw [List.length_append, List.length_singleton] at hslots
    refine addData_round hp h fun len last' new s' hle hwrote hroom => ?_
    rw [if_neg (by omega)]
    refine addData_last hp h hwrote (Or.inl rfl) fun inode' kids' hadd => ?_
    exact ⟨len, kids', new, hadd, hroom.mono (Nat.le_add_left _ _)⟩
  | succ m ih =>
    obtain ⟨fuel, rfl⟩ := Nat.exists_eq_succ_of_ne_zero (by omega : fuel ≠ 0)
    have hslots := hp.slots
    rw [List.length_append, List.length_singleton] at hslots
    refine addData_round hp h fun len last' new s' hle hwrote hroom => ?_
    by_cases hrest : str.drop len = []
    · rw [if_neg (fun hc => hc.1 hrest)]
      have hlen : len = str.length := by rw [List.drop_eq_nil_iff] at hrest; omega
      refine addData_last hp h hwrote (Or.inr hlen) fun inode' kids' hadd => ?_
      exact ⟨len, kids', new, hadd, hroom.mono (Nat.le_add_left _ _)⟩
    · rw [if_pos ⟨hrest, by omega⟩]
      have hlt : len < str.length := by rw [List.drop_eq_nil_iff] at hrest; omega
      have heq : str.length - last.2.room = str.length - len := by have := hwrote.len_eq; omega
      rw [heq, needFrom_succ (by omega)] at hroom
      have hroom' : s'.Room P (needBelow (ptrLevel (init.length + 1)) (str.length - len) + needFrom ptrLevel m
          (init.length + 1 + 1) (str.length - len - cap (ptrLevel (init.length + 1))) + k + 1) := hroom.mono (by omega)
      refine fresh_spec hroom' fun nId s'' hf hroom'' => ?_
      refine wp_mono (ih (by omega) (hp.grow hwrote hf) (h.grow hwrote hlt hf hroom'')) ?_
      rintro inode' s₃ ⟨len₂, kids', new₂, hadd, hroom₃⟩
      refine ⟨len + len₂, kids', new ++ nId :: new₂, ⟨hadd.holds, hadd.size, ?_, hadd.time, ?_⟩, hroom₃⟩
      · rw [hadd.parent, Zone.parent_setPtr]
      · exact Grown.grow hwrote hlt hf hadd.grown

end

/-! ## Files -/

/-- The file at inode `id`: `kids` are the trees that its pointers refer to. -/
structure FileRep (s : Store nb) (id : Int) (kids : List Kid) : Prop where
  holds : Holds (s.zones id).ptr 24 (kids.map (·.2.id))
  levels : kids.map Sigma.fst = (List.range kids.length).map ptrLevel
  rep : ∀ t ∈ kids, t.2.Rep s.zones
  full : ∀ t ∈ kids.dropLast, t.2.Full
  packed : ∀ t ∈ kids.getLast?, t.2.Packed
  nodup : (kids.flatMap (·.2.ids)).Nodup
  used : ∀ z ∈ kids.flatMap (·.2.ids), s.Used z
  not_mem : id ∉ kids.flatMap (·.2.ids)

/-- The zones from the inode to the last data zone. -/
def filePath (id : Int) (kids : List Kid) : List Int := id :: (kids.getLast?.map fun t => t.2.lastPath).getD []

/-- The zones that the file takes for `chars` more characters. -/
def fileNeed (kids : List Kid) (chars : Nat) : Nat :=
  (kids.getLast?.map fun t => t.2.need chars).getD 0 +
    needFrom ptrLevel (24 - kids.length) kids.length (chars - (kids.getLast?.map fun t => t.2.room).getD 0)

/-- The characters that the file can still take. -/
def fileRoom (kids : List Kid) : Nat :=
  (kids.getLast?.map fun t => t.2.room).getD 0 + capFrom ptrLevel (24 - kids.length) kids.length

theorem filePath_concat (id : Int) (init : List Kid) (last : Kid) : filePath id (init ++ [last]) = id :: last.2.lastPath := by
  simp [filePath]

theorem fileRoom_nil : fileRoom [] = cap 0 + capFrom ptrLevel 23 1 := Nat.zero_add _

theorem fileRoom_concat (init : List Kid) (last : Kid) :
    fileRoom (init ++ [last]) = last.2.room + capFrom ptrLevel (23 - init.length) (init.length + 1) := by
  simp [fileRoom]

theorem fileNeed_nil {chars : Nat} (hpos : 0 < chars) :
    fileNeed [] chars = 1 + needFrom ptrLevel 23 1 (chars - cap 0) := by
  show 0 + needFrom ptrLevel 24 0 chars = _
  rw [needFrom_succ (m := 23) (Nat.ne_of_gt hpos)]
  show 0 + (1 + 0 + needFrom ptrLevel 23 1 (chars - cap 0)) = _
  omega

theorem fileNeed_concat (init : List Kid) (last : Kid) (chars : Nat) : fileNeed (init ++ [last]) chars =
    last.2.need chars + needFrom ptrLevel (23 - init.length) (init.length + 1) (chars - last.2.room) := by
  simp [fileNeed]

theorem FileRep.length_le {id : Int} {kids : List Kid} (h : FileRep s id kids) : kids.length ≤ 24 := by
  have := h.holds.le
  rwa [List.length_map] at this

/-! ### The room of a file -/

theorem FileTree.cap_succ (n : Nat) : cap (n + 1) = 32 * cap n := by
  unfold cap
  rw [Nat.pow_succ]
  omega

theorem FileTree.Full.length_text {n : Nat} {t : FileTree n} (h : t.Full) : t.text.length = cap n := by
  induction n with
  | zero => exact h
  | succ n ih =>
    obtain ⟨id, kids⟩ := t
    obtain ⟨hlen, hfull⟩ := h
    show (kids.flatMap FileTree.text).length = cap (n + 1)
    rw [length_flatMap_const fun t ht => ih (hfull t ht), hlen, cap_succ]

/-- A tree that is full up to its last data zone holds what it has no room for. -/
theorem FileTree.Ready.text_add_room {n : Nat} {zones : Int → Zone} {t : FileTree n} (hrep : t.Rep zones) (h : t.Ready) :
    t.text.length + t.room = cap n := by
  induction n with
  | zero =>
    obtain ⟨id, text⟩ := t
    have hlen : text.length < 64 := Bytes.HasStr.length_lt hrep.2
    show text.length + (63 - text.length) = 63
    omega
  | succ n ih =>
    obtain ⟨id, kids⟩ := t
    rcases List.eq_nil_or_concat' kids with rfl | ⟨init, last, rfl⟩
    · rw [room_nil, cap_succ]
      exact Nat.zero_add _
    · obtain ⟨hfull, hready⟩ := h
      rw [List.dropLast_concat] at hfull
      have hlast := ih (hrep.2.2 last (by simp)) (hready last (by simp))
      have hinit := length_flatMap_const (f := FileTree.text) fun t ht => (hfull t ht).length_text
      have hle : init.length + 1 ≤ 32 := by simpa using hrep.2.1.le
      have htext : (FileTree.text (n := n + 1) (id, init ++ [last])).length = init.length * cap n + last.text.length := by
        show ((init ++ [last]).flatMap FileTree.text).length = _
        rw [flatMap_concat, List.length_append, hinit]
      have hsum : 32 * cap n = (init.length + 1 + (31 - init.length)) * cap n := by
        congr 1
        omega
      rw [htext, room_concat, cap_succ, hsum, Nat.add_mul, Nat.add_mul, Nat.one_mul]
      omega

/-- The characters of the first `i` trees of a row when they are full. -/
def fullText : Nat → Nat
  | 0 => 0
  | i + 1 => fullText i + cap (ptrLevel i)

theorem length_text_full {row : List Kid} (hl : row.map Sigma.fst = (List.range row.length).map ptrLevel)
    (hfull : ∀ t ∈ row, t.2.Full) : (row.flatMap (·.2.text)).length = fullText row.length := by
  induction row using List.reverseRecOn with
  | nil => rfl
  | append_singleton init last ih =>
    rw [List.length_append, List.length_singleton] at hl
    obtain ⟨hinit, hlast⟩ := levels_split hl
    rw [flatMap_concat, List.length_append, ih hinit fun t ht => hfull t (List.mem_append_left _ ht),
      (hfull last (by simp)).length_text, hlast, List.length_append, List.length_singleton]
    rfl

theorem fullText_add_capFrom (m i : Nat) : fullText i + capFrom ptrLevel m i = fullText (i + m) := by
  induction m generalizing i with
  | zero => rfl
  | succ m ih =>
    rw [capFrom, ← Nat.add_assoc, show fullText i + cap (ptrLevel i) = fullText (i + 1) from rfl, ih,
      show i + 1 + m = i + (m + 1) by omega]

/-- A file holds 2132 data zones of 63 characters. -/
theorem FileRep.text_add_room {id : Int} {kids : List Kid} (h : FileRep s id kids) :
    (kids.flatMap (·.2.text)).length + fileRoom kids = 63 * 2132 := by
  have hle := h.length_le
  have htotal : fullText 24 = 63 * 2132 := by decide
  rcases List.eq_nil_or_concat' kids with rfl | ⟨init, last, rfl⟩
  · have := fullText_add_capFrom 24 0
    simp only [fullText, Nat.zero_add] at this
    simpa [fileRoom] using this.trans htotal
  · rw [List.length_append, List.length_singleton] at hle
    have hl := h.levels
    rw [List.length_append, List.length_singleton] at hl
    obtain ⟨hlinit, hlast⟩ := levels_split hl
    have hfull : ∀ t ∈ init, t.2.Full := fun t ht => h.full t (by rwa [List.dropLast_concat])
    have htext := (h.packed last (by simp)).ready.text_add_room (h.rep last (by simp))
    have hcap := fullText_add_capFrom (23 - init.length) (init.length + 1)
    rw [show init.length + 1 + (23 - init.length) = 24 by omega, htotal] at hcap
    have hstep : fullText (init.length + 1) = fullText init.length + cap last.1 := by rw [hlast]; rfl
    rw [flatMap_concat, List.length_append, length_text_full hlinit hfull, fileRoom_concat]
    omega

/-! ### Appending -/

/-- The file has taken the first `len` characters of `str` and the zones `new`. -/
structure Appended (s : Store nb) (id : Int) (kids : List Kid) (str : Str) (len : Nat) (s' : Store nb) (kids' : List Kid)
    (new : List Int) : Prop where
  file : FileRep s' id kids'
  size : (s'.zones id).size = 1 + (kids'.flatMap (·.2.ids)).length
  parent : (s'.zones id).parent = (s.zones id).parent
  time : (s'.zones id).time < 2 ^ 63
  len_eq : len = min str.length (fileRoom kids)
  text : kids'.flatMap (·.2.text) = kids.flatMap (·.2.text) ++ str.take len
  ids : (kids'.flatMap (·.2.ids)).Perm (kids.flatMap (·.2.ids) ++ new)
  takes : s.Takes new s'
  frame : ∀ z, z ∉ filePath id kids → z ∉ new → s'.zones z = s.zones z
  count : new.length = fileNeed kids str.length

section
variable {id : Int} {kids : List Kid} {str : Str} {k : Nat}

/-- What `append` does to an inode once it has found it. -/
def appendTo (id : Int) (inode : Zone) (str : Str) : FsM Unit := do
  let inode ← addData zoneFuel inode str
  Fs.writeZone id inode

/-- The inode that is written back is the file with its new row. -/
theorem AddedData.appended {inode inode' : Zone} {init : List Kid} {last : Kid} {m len : Nat} {kids' : List Kid}
    {new : List Int} (h : AddedData s inode init last m str len s' inode' kids' new) (hid : s.Used id)
    (hrow : id ∉ (init ++ [last]).flatMap (·.2.ids)) (hnodup : ((init ++ [last]).flatMap (·.2.ids)).Nodup)
    (hused : ∀ z ∈ (init ++ [last]).flatMap (·.2.ids), s.Used z) : FileRep (s'.write id inode') id kids' := by
  have hg := h.grown
  have hmem : id ∉ kids'.flatMap (·.2.ids) := fun hz => by
    rcases List.mem_append.mp (hg.ids.mem_iff.mp hz) with hz | hz
    · exact hrow hz
    · exact hg.takes.not_mem hid hz
  obtain ⟨init', last', rfl, hfull, hpacked⟩ := hg.packed
  refine ⟨?_, hg.levels, fun t ht => (hg.rep t ht).congr fun z hz => Store.zones_write_of_ne _ ?_, fun t ht => ?_,
    fun t ht => ?_,
    hg.ids.nodup_iff.mpr (hg.takes.nodup_append hnodup hused), fun z hz => ?_, hmem⟩
  · rw [Store.zones_write_self]
    exact h.holds
  · rintro rfl
    exact hmem (mem_ids_row ht hz)
  · rw [List.dropLast_concat] at ht
    exact hfull t ht
  · rw [List.getLast?_concat, Option.mem_some] at ht
    rwa [← ht]
  · exact hg.takes.used_append hused z (hg.ids.mem_iff.mp hz)

/-- The zones `pre` are taken before `add_data` sees the file with the row `init ++ [last]`. -/
theorem AddedData.append {s₁ : Store nb} {inode inode' : Zone} {init : List Kid} {last : Kid} {m len : Nat} {kids' : List Kid}
    {pre new : List Int} (h : AddedData s₁ inode init last m str len s' inode' kids' new) (hfile : FileRep s id kids)
    (hid : s.Used id) (hpre : s.Takes pre s₁) (hframe : ∀ z, z ∉ pre → s₁.zones z = s.zones z)
    (hparent : inode.parent = (s.zones id).parent)
    (hids : (init ++ [last]).flatMap (·.2.ids) = kids.flatMap (·.2.ids) ++ pre)
    (htext : (init ++ [last]).flatMap (·.2.text) = kids.flatMap (·.2.text))
    (hpath : ∀ z ∈ last.2.lastPath, z ∈ filePath id kids ∨ z ∈ pre)
    (hroom : last.2.room + capFrom ptrLevel m (init.length + 1) = fileRoom kids)
    (hneed : pre.length + (last.2.need str.length + needFrom ptrLevel m (init.length + 1) (str.length - last.2.room)) =
      fileNeed kids str.length) :
    Appended s id kids str len (s'.write id inode') kids' (pre ++ new) := by
  have hg := h.grown
  have hrow : id ∉ (init ++ [last]).flatMap (·.2.ids) := by
    rw [hids, List.mem_append]
    exact not_or.mpr ⟨hfile.not_mem, hpre.not_mem hid⟩
  have htakes := hpre.trans hg.takes
  refine ⟨?_, ?_, ?_, ?_, hroom ▸ hg.len_eq, htext ▸ hg.text, ?_, ⟨htakes.nodup, htakes.free, htakes.state⟩,
    fun z hz hnew => ?_, ?_⟩
  · exact h.appended (hpre.used hid) hrow (hids ▸ hpre.nodup_append hfile.nodup hfile.used)
      (hids ▸ hpre.used_append hfile.used)
  · rw [Store.zones_write_self]
    exact h.size
  · rw [Store.zones_write_self, h.parent, hparent]
  · rw [Store.zones_write_self]
    exact h.time
  · rw [← List.append_assoc, ← hids]
    exact hg.ids
  · obtain ⟨hnpre, hnnew⟩ := not_or.mp (List.mem_append.not.mp hnew)
    have hzid : z ≠ id := fun heq => hz (heq ▸ List.mem_cons_self)
    rw [Store.zones_write_of_ne _ hzid, hg.frame z List.not_mem_nil (fun hl => (hpath z hl).elim hz hnpre) hnnew,
      hframe z hnpre]
  · rw [List.length_append, hg.count, hneed]

theorem Ptrs.first {inode : Zone} {nId : Int} (hzero : ∀ i < 24, inode.ptr i = 0) (hf : Fresh s nId s') :
    Ptrs (inode.setPtr 0 nId) ([] ++ [⟨0, FileTree.new 0 nId⟩]) 23 := by
  have hempty : Holds inode.ptr 24 [] := .nil hzero
  refine ⟨hempty.concat (z := nId) (by simp) hf.ne_zero ?_
    fun i _ hi => Zone.ptr_setPtr_of_ne hi, rfl⟩
  exact Zone.ptr_setPtr_self (by simp) hf.fits

theorem Growing.first {nId : Int} (hf : Fresh s nId s') (hne : str ≠ []) (hnul : NulFree str) (hshort : str.length < 2 ^ 15)
    (hroom : s'.Room P (needFrom ptrLevel 23 1 (str.length - cap 0) + k)) :
    Growing P s' ptrLevel [] ⟨0, FileTree.new 0 nId⟩ 23 str k := by
  refine ⟨rfl, fun t ht => ?_, nofun, ready_new _, List.nodup_singleton nId, ?_, hne, hnul, hshort, ?_⟩
  · rw [List.mem_singleton.mp ht]
    exact rep_new hf.le hf.zone
  · exact hf.takes.used_append (l := []) nofun
  · rw [need_new, room_new]
    show s'.Room P (0 + needFrom ptrLevel 23 1 (str.length - cap 0) + k)
    rwa [Nat.zero_add]

/-- A file without data gets its first data zone. -/
theorem addData_first [Sized nb] {fuel : Nat} {inode : Zone} {Q : Zone → Store nb → Prop} (hzero : ∀ i < 24, inode.ptr i = 0)
    (hne : str ≠ []) (hroom : s.Room P (k + 1))
    (h : ∀ nId s', Fresh s nId s' → s'.Room P k → wp (storeSem P) (addData (fuel + 1) (inode.setPtr 0 nId) str) Q s') :
    wp (storeSem P) (addData (fuel + 1) inode str) Q s := by
  have hpos : ∀ i < 24, ¬inode.ptr i ≠ 0 := fun i hi => not_not.mpr (hzero i hi)
  unfold addData addDataLast
  rw [if_neg (hpos 23 (by omega)), if_neg (hpos 22 (by omega)), if_neg (hpos 21 (by omega)), if_neg (hpos 20 (by omega))]
  refine wp_bind.mpr (wp_bind.mpr (firstZone_spec (by simpa using hzero 0 (by omega)) hne hroom fun nId s' hf hroom' => ?_))
  -- With the new pointer the rest is what a call on the inode with that pointer does.
  have hp := Ptrs.first hzero hf
  have hptr : (inode.setPtr 0 nId).ptr 0 = nId := hp.holds.used 0 (by simp)
  have hidx : lastNonzero (inode.setPtr 0 nId).ptr 19 = 0 := lastNonzero_eq hp.holds (by omega) (by simp)
  have hrest := h nId s' hf hroom'
  unfold addData at hrest
  rw [addDataLast_eq hp rfl str] at hrest
  show wp (storeSem P) (wrtData ((inode.setPtr 0 nId).ptr (lastNonzero (inode.setPtr 0 nId).ptr 19)) str >>= fun len =>
    (.ret (inode.setPtr 0 nId, lastNonzero (inode.setPtr 0 nId).ptr 19, len) : FsM (Zone × Nat × Int))) _ s'
  rw [hidx, hptr]
  exact wp_bind.mp hrest

/-- `append` on a well-formed file. -/
theorem appendTo_spec [Sized nb] (hid : 4 ≤ id) (hused : s.Used id) (h : FileRep s id kids) (hne : str ≠ [])
    (hnul : NulFree str) (hshort : str.length < 2 ^ 15) (hroom : s.Room P (fileNeed kids str.length + k)) :
    wp (storeSem P) (appendTo id (s.zones id) str)
      (fun _ s' => ∃ (len : Nat) (kids' : List Kid) (new : List Int),
        Appended s id kids str len s' kids' new ∧ s'.Room P k) s := by
  have hpos := List.length_pos_of_ne_nil hne
  rcases List.eq_nil_or_concat' kids with rfl | ⟨init, last, rfl⟩
  · have hneed := fileNeed_nil hpos
    have hzero : ∀ i < 24, (s.zones id).ptr i = 0 := fun i hi => h.holds.free i (Nat.zero_le _) hi
    have hroom' : s.Room P (needFrom ptrLevel 23 1 (str.length - cap 0) + k + 1) := by
      rw [hneed] at hroom
      exact hroom.mono (by omega)
    have hfuel : zoneFuel = 32767 + 1 := rfl
    unfold appendTo
    rw [hfuel]
    refine wp_bind.mpr (addData_first hzero hne hroom' fun nId s₁ hf hroom₁ => ?_)
    refine wp_mono (addData_spec (by omega) (Ptrs.first hzero hf) (Growing.first hf hne hnul hshort hroom₁)) ?_
    rintro inode' s₂ ⟨len, kids', new, hadd, hroom₂⟩
    refine writeZone_spec hid ⟨len, kids', [nId] ++ new, hadd.append h hused hf.takes (fun z hz => hf.frame z ?_)
      Zone.parent_setPtr ?_ ?_ (fun z hz => Or.inr ?_) ?_ ?_, hroom₂⟩
    · rwa [List.mem_singleton] at hz
    · simp
    · simp
    · rwa [lastPath_new] at hz
    · rw [room_new]
      exact fileRoom_nil.symm
    · rw [need_new, room_new, hneed]
      show 1 + (0 + needFrom ptrLevel 23 1 (str.length - cap 0)) = _
      omega
  · have hle := h.length_le
    rw [List.length_append, List.length_singleton] at hle
    have hfull : ∀ t ∈ init, t.2.Full := fun t ht => h.full t (by rwa [List.dropLast_concat])
    have hneed := fileNeed_concat init last str.length
    have hlevels := h.levels
    rw [List.length_append, List.length_singleton] at hlevels
    have hgrow : Growing P s ptrLevel init last (23 - init.length) str k :=
      ⟨hlevels, h.rep, hfull, (h.packed last (by simp)).ready, h.nodup, h.used, hne, hnul, hshort, hneed ▸ hroom⟩
    have hp : Ptrs (s.zones id) (init ++ [last]) (23 - init.length) := ⟨h.holds, by simp; omega⟩
    unfold appendTo
    refine wp_bind.mpr (wp_mono (addData_spec (by unfold zoneFuel; omega) hp hgrow) ?_)
    rintro inode' s₂ ⟨len, kids', new, hadd, hroom₂⟩
    refine writeZone_spec hid ⟨len, kids', [] ++ new, hadd.append h hused (.nil fun _ => rfl) (fun _ _ => rfl) rfl
      (List.append_nil _).symm rfl (fun z hz => Or.inl ?_) (fileRoom_concat init last).symm ?_, hroom₂⟩
    · rw [filePath_concat]
      exact List.mem_cons_of_mem _ hz
    · rw [hneed]
      exact Nat.zero_add _

end

end

end MiniFs
