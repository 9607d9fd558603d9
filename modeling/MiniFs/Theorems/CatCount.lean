import MiniFs.Theorems.Listings
import MiniFs.Theorems.Remove

/-! # The count of `cat`

`cat` announces what `get_cat_len` makes of the inode's size, and `cat_file` sends the data zones. The formulas of
`get_cat_len` are off by one for files that end in some parts of the pointer tree. -/

namespace MiniFs
open Interact Memory FileTree

/-- The texts of the data zones, in the order in which `cat_file` visits them. -/
def FileTree.texts : {n : Nat} → FileTree n → List Str
  | 0, (_, text) => [text]
  | _ + 1, (_, kids) => kids.flatMap texts

/-- The data zones of a file. -/
def dataZones (kids : List Kid) : List Str := kids.flatMap (·.2.texts)

/-- The zones of a file, laid out as `add_data` fills them; what the bitmap says of them is left open. -/
structure FileLayout (zones : Int → Zone) (id : Int) (kids : List Kid) : Prop where
  holds : Holds (zones id).ptr 24 (kids.map (·.2.id))
  levels : kids.map Sigma.fst = (List.range kids.length).map ptrLevel
  rep : ∀ t ∈ kids, t.2.Rep zones
  full : ∀ t ∈ kids.dropLast, t.2.Full
  packed : ∀ t ∈ kids.getLast?, t.2.Packed
  nodup : (kids.flatMap (·.2.ids)).Nodup
  not_mem : id ∉ kids.flatMap (·.2.ids)

theorem FileRep.layout {nb : Nat} {s : Store nb} {id : Int} {kids : List Kid} (h : FileRep s id kids) :
    FileLayout s.zones id kids :=
  ⟨h.holds, h.levels, h.rep, h.full, h.packed, h.nodup, h.not_mem⟩

/-- A data zone is answered with its text. -/
def IsText (text : Str) (m : Msg) : Prop := m = packet text

/-- `get_cat_len` of the size is the number of data zones, and `cat_file` sends these, one for each `EXPECT`. -/
def CatComplete (s : Store) (id : Int) (kids : List Kid) : Prop :=
  wp (storeSem .all) (updateSize (s.zones id))
      (fun size s' => s' = s ∧ getCatLen (size % 2 ^ 32).toNat = (dataZones kids).length) s ∧
    wp (storeSem .all).talk (catFile id) (fun _ u => u = (s, .done))
      (s, exchanges ((dataZones kids).map IsText) .done)

/-- The numbers of data zones on which `get_cat_len` is right. -/
def CatCounted (n : Nat) : Prop :=
  n ≤ 42 ∨ 52 < n ∧ n ≤ 84 ∨ 84 < n ∧ n ≤ 1108 ∧ (n - 84) % 32 = 0 ∨ 1108 < n ∧ (n - 1108) % 32 ≠ 0

theorem FileTree.flatten_texts {n : Nat} (t : FileTree n) : t.texts.flatten = t.text := by
  induction n with
  | zero => exact List.append_nil _
  | succ n ih =>
    obtain ⟨id, kids⟩ := t
    show (kids.flatMap texts).flatten = kids.flatMap text
    induction kids with
    | nil => rfl
    | cons k kids ihk => rw [List.flatMap_cons, List.flatten_append, ih, ihk, List.flatMap_cons]

theorem flatten_dataZones (kids : List Kid) : (dataZones kids).flatten = content kids := by
  unfold dataZones content
  induction kids with
  | nil => rfl
  | cons k kids ih => rw [List.flatMap_cons, List.flatten_append, flatten_texts, ih, List.flatMap_cons]

/-! ## Numbers of zones -/

theorem length_flatMap_le {α β : Type} {f : α → List β} {c : Nat} {l : List α} (h : ∀ a ∈ l, (f a).length ≤ c) :
    (l.flatMap f).length ≤ l.length * c := by
  induction l with
  | nil => exact Nat.zero_le _
  | cons a l ih =>
    have ha := h a List.mem_cons_self
    have hl := ih fun b hb => h b (List.mem_cons_of_mem _ hb)
    rw [List.flatMap_cons, List.length_append, List.length_cons, Nat.succ_mul]
    omega

namespace FileTree

theorem Full.length_texts {n : Nat} {t : FileTree n} (h : t.Full) : t.texts.length = 32 ^ n := by
  induction n with
  | zero => rfl
  | succ n ih =>
    obtain ⟨id, kids⟩ := t
    obtain ⟨hlen, hfull⟩ := h
    show (kids.flatMap texts).length = 32 ^ (n + 1)
    rw [length_flatMap_const fun t ht => ih (hfull t ht), hlen, Nat.pow_succ, Nat.mul_comm]

theorem Rep.length_ids_le {n : Nat} {zones : Int → Zone} {t : FileTree n} (h : t.Rep zones) : t.ids.length ≤ fullIds n := by
  induction n with
  | zero => exact Nat.le_refl 1
  | succ n ih =>
    obtain ⟨id, kids⟩ := t
    have hlen := h.2.1.le
    rw [List.length_map] at hlen
    have hkids : (kids.flatMap ids).length ≤ kids.length * fullIds n := length_flatMap_le fun t ht => ih (h.2.2 t ht)
    show (id :: kids.flatMap ids).length ≤ 1 + 32 * fullIds n
    have hmul := Nat.mul_le_mul_right (fullIds n) hlen
    rw [List.length_cons]
    omega

/-- An index zone of data zones. -/
theorem length_ids_one (t : FileTree 1) : t.ids.length = 1 + t.texts.length := by
  obtain ⟨id, kids⟩ := t
  show (id :: kids.flatMap ids).length = 1 + (kids.flatMap texts).length
  rw [List.length_cons, length_flatMap_const (c := 1) fun _ _ => rfl, length_flatMap_const (c := 1) fun _ _ => rfl,
    Nat.add_comm]

theorem Rep.length_le {n : Nat} {zones : Int → Zone} {id : Int} {kids : List (FileTree n)}
    (h : Rep (n := n + 1) zones (id, kids)) : kids.length ≤ 32 := by
  have hle := h.2.1.le
  rwa [List.length_map] at hle

theorem Packed.length_texts_one {zones : Int → Zone} {t : FileTree 1} (h : t.Packed) (hrep : t.Rep zones) :
    1 ≤ t.texts.length ∧ t.texts.length ≤ 32 := by
  obtain ⟨id, kids⟩ := t
  have hlen : (texts (n := 1) (id, kids)).length = kids.length := by
    show (kids.flatMap texts).length = kids.length
    rw [length_flatMap_const (c := 1) fun _ _ => rfl, Nat.mul_one]
  rw [hlen]
  exact ⟨List.length_pos_of_ne_nil h.1, hrep.length_le⟩

/-- An index zone of `k + 1` index zones, all but the last of which are full. -/
theorem Packed.length_two {zones : Int → Zone} {t : FileTree 2} (h : t.Packed) (hrep : t.Rep zones) :
    ∃ k r, k < 32 ∧ 1 ≤ r ∧ r ≤ 32 ∧ t.texts.length = 32 * k + r ∧ t.ids.length = 2 + 33 * k + r := by
  obtain ⟨id, kids⟩ := t
  obtain ⟨init, last, rfl⟩ := (List.eq_nil_or_concat' kids).resolve_left h.1
  have hfull : ∀ t ∈ init, t.Full := fun t ht => h.2.1 t (by rwa [List.dropLast_concat])
  have hlast := (h.2.2 last (by simp)).length_texts_one (hrep.2.2 last (by simp))
  have hle := hrep.length_le
  rw [List.length_append, List.length_singleton] at hle
  refine ⟨init.length, last.texts.length, by omega, hlast.1, hlast.2, ?_, ?_⟩
  · show ((init ++ [last]).flatMap texts).length = _
    rw [flatMap_concat, List.length_append, length_flatMap_const fun t ht => (hfull t ht).length_texts]
    show init.length * 32 + _ = _
    omega
  · show (id :: (init ++ [last]).flatMap ids).length = _
    rw [List.length_cons, flatMap_concat, List.length_append, length_flatMap_const fun t ht => (hfull t ht).length_ids,
      length_ids_one, show fullIds 1 = 33 from rfl]
    omega

end FileTree

/-- The data zones of the first `i` trees of a row when they are full. -/
def fullTexts : Nat → Nat
  | 0 => 0
  | i + 1 => fullTexts i + 32 ^ ptrLevel i

theorem length_texts_full {row : List Kid} (hl : row.map Sigma.fst = (List.range row.length).map ptrLevel)
    (hfull : ∀ t ∈ row, t.2.Full) : (dataZones row).length = fullTexts row.length := by
  induction row using List.reverseRecOn with
  | nil => rfl
  | append_singleton init last ih =>
    rw [List.length_append, List.length_singleton] at hl
    obtain ⟨hinit, hlast⟩ := levels_split hl
    unfold dataZones at ih ⊢
    rw [flatMap_concat, List.length_append, ih hinit fun t ht => hfull t (List.mem_append_left _ ht),
      (hfull last (by simp)).length_texts, hlast, List.length_append, List.length_singleton]
    rfl

theorem toInt32_eq {v : Int} (h0 : 0 ≤ v) (hlt : v < 2 ^ 31) : toInt32 v = v := by
  unfold toInt32
  rw [Int.emod_eq_of_lt h0 (by omega), if_pos hlt]

section
variable {nb : Nat} {P : Policy} {s : Store nb} {id : Int} {kids : List Kid}

/-- The size and the number of data zones of a file with `init` before its last tree. -/
theorem FileLayout.counts {init : List Kid} {last : Kid} (h : FileLayout s.zones id (init ++ [last])) :
    last.1 = ptrLevel init.length ∧ init.length < 24 ∧ last.2.Rep s.zones ∧ last.2.Packed ∧
      ((init ++ [last]).flatMap (·.2.ids)).length = fullRow init.length + last.2.ids.length ∧
      (dataZones (init ++ [last])).length = fullTexts init.length + last.2.texts.length := by
  have hlevels := h.levels
  rw [List.length_append, List.length_singleton] at hlevels
  obtain ⟨hlinit, hlevel⟩ := levels_split hlevels
  have hfull : ∀ t ∈ init, t.2.Full := fun t ht => h.full t (by rwa [List.dropLast_concat])
  have hle := h.holds.le
  rw [List.length_map, List.length_append, List.length_singleton] at hle
  refine ⟨hlevel, hle, h.rep last (by simp), h.packed last (by simp), ?_, ?_⟩
  · rw [flatMap_concat, List.length_append, length_ids_full hlinit hfull]
  · rw [← length_texts_full hlinit hfull]
    exact (congrArg List.length (flatMap_concat _ _ _)).trans List.length_append

theorem FileLayout.length_ids_lt (h : FileLayout s.zones id kids) : (kids.flatMap (·.2.ids)).length < 2 ^ 15 - 1 := by
  rcases List.eq_nil_or_concat' kids with rfl | ⟨init, last, rfl⟩
  · decide
  obtain ⟨hlevel, hlt, hrep, -, hids, -⟩ := h.counts
  have hbounds : ∀ i < 24, fullRow i ≤ 1143 ∧ fullIds (ptrLevel i) ≤ 1057 := by decide
  have hlast := hrep.length_ids_le.trans_eq (congrArg fullIds hlevel)
  have hi := hbounds _ hlt
  omega

/-- The arithmetic of `get_cat_len`, one case for each kind of pointer that the file ends in. -/
theorem FileLayout.getCatLen_iff (h : FileLayout s.zones id kids) :
    getCatLen (1 + (kids.flatMap (·.2.ids)).length) = (dataZones kids).length ↔ CatCounted (dataZones kids).length := by
  rcases List.eq_nil_or_concat' kids with rfl | ⟨init, ⟨l, t⟩, rfl⟩
  · exact iff_of_true (by decide) (Or.inl (by decide))
  obtain ⟨hlevel, hlt, hrep, hpacked, hids, htexts⟩ := h.counts
  rw [hids, htexts]
  clear hids htexts h
  dsimp only at hlevel hrep hpacked ⊢
  generalize init.length = i at *
  unfold getCatLen CatCounted
  rcases (by omega : i < 20 ∨ (i = 20 ∨ i = 21) ∨ (i = 22 ∨ i = 23)) with hi | hi | hi
  · -- a direct pointer
    have hdirect : ∀ i < 20, fullRow i = i ∧ fullTexts i = i := by decide
    obtain ⟨hrow, hrow'⟩ := hdirect i hi
    obtain rfl : l = 0 := hlevel.trans (if_pos hi)
    have hone : t.ids.length = 1 ∧ t.texts.length = 1 := ⟨rfl, rfl⟩
    rw [hone.1, hone.2, hrow, hrow', if_pos (by omega), toInt32_eq (by omega) (by omega)]
    omega
  · -- an index zone of `r` data zones
    obtain rfl : l = 1 := by rcases hi with rfl | rfl <;> exact hlevel
    obtain ⟨hpos, hle⟩ := hpacked.length_texts_one hrep
    rw [length_ids_one]
    generalize t.texts.length = r at *
    rcases hi with rfl | rfl
    · rw [show fullRow 20 = 20 from rfl, show fullTexts 20 = 20 from rfl, if_neg (by omega)]
      split
      · rw [toInt32_eq (by omega) (by omega)]
        omega
      · rw [if_pos (by omega), toInt32_eq (by omega) (by omega)]
        omega
    · rw [show fullRow 21 = 53 from rfl, show fullTexts 21 = 52 from rfl, if_neg (by omega), if_neg (by omega),
        if_pos (by omega), toInt32_eq (by omega) (by omega)]
      omega
  · -- `k` full index zones and one of `r` data zones
    obtain rfl : l = 2 := by rcases hi with rfl | rfl <;> exact hlevel
    obtain ⟨k, r, hk, hpos, hle, htexts, hids⟩ := hpacked.length_two hrep
    rw [htexts, hids]
    rcases hi with rfl | rfl
    · rw [show fullRow 22 = 86 from rfl, show fullTexts 22 = 84 from rfl, if_neg (by omega), if_neg (by omega),
        if_neg (by omega), if_pos (by omega), toInt32_eq (by omega) (by omega)]
      omega
    · rw [show fullRow 23 = 1143 from rfl, show fullTexts 23 = 1108 from rfl, if_neg (by omega), if_neg (by omega),
        if_neg (by omega), if_neg (by omega), toInt32_eq (by omega) (by omega), Nat.add_sub_cancel_left]
      have hdiv : (1 + (1143 + (2 + 33 * k + r)) - 1112) / 33 = k + 1 + (r + 1) / 33 := by omega
      have hmod : (32 * k + r) % 32 = r % 32 := by omega
      rw [hdiv, hmod]
      omega

/-! ## Sending -/

/-- `cat_data` and `cat_idx` at each level. -/
def catLevel : Nat → Int → FsM Unit
  | 0 => catData
  | n + 1 => catIdxAt (catLevel n)

theorem catIdx_eq : (catIdx · false) = catLevel 1 ∧ (catIdx · true) = catLevel 2 := ⟨rfl, rfl⟩

theorem catData_talk {text : Str} {A : Session} {Q : Unit → Store nb × Session → Prop} (hid : 4 ≤ id)
    (h : (s.zones id).HasStr 0 text) (hQ : Q () (s, A)) :
    wp (storeSem P).talk (catData id) Q (s, exchanges [IsText text] A) := by
  unfold catData
  refine wp_bind.mpr (getExpect_talk ?_)
  rw [if_pos rfl]
  refine wp_bind.mpr (readZone_talk hid ?_)
  dsimp only
  rw [h.cstr_eq]
  exact sendStr_answer rfl hQ

theorem each_talk {α : Type} {f : Int → FsM Unit} {id : α → Int} {texts : α → List Str} {row : List α} {A : Session}
    {Q : Unit → Store nb × Session → Prop}
    (hf : ∀ t ∈ row, ∀ (A : Session) (R : Unit → Store nb × Session → Prop), R () (s, A) →
      wp (storeSem P).talk (f (id t)) R (s, exchanges ((texts t).map IsText) A)) (hQ : Q () (s, A)) :
    wp (storeSem P).talk (each f (row.map id)) Q (s, exchanges ((row.flatMap texts).map IsText) A) := by
  induction row with
  | nil => exact wp_ret.mpr hQ
  | cons t row ih =>
    rw [List.flatMap_cons, List.map_append, exchanges_append]
    exact wp_bind.mpr (hf t List.mem_cons_self _ _ (ih fun t ht => hf t (List.mem_cons_of_mem _ ht)))

theorem catLevel_talk {n : Nat} {t : FileTree n} (h : t.Rep s.zones) {A : Session} {Q : Unit → Store nb × Session → Prop}
    (hQ : Q () (s, A)) : wp (storeSem P).talk (catLevel n t.id) Q (s, exchanges (t.texts.map IsText) A) := by
  induction n generalizing A Q with
  | zero => exact catData_talk h.1 h.2 hQ
  | succ n ih =>
    obtain ⟨id, kids⟩ := t
    show wp (storeSem P).talk (catIdxAt (catLevel n) id) Q (s, exchanges ((kids.flatMap texts).map IsText) A)
    unfold catIdxAt
    refine wp_bind.mpr (readZone_talk h.1 ?_)
    dsimp only
    have hall : ((kids.map FileTree.id).drop 0).take 32 = kids.map FileTree.id := by
      rw [List.drop_zero, List.take_of_length_le h.2.1.le]
    rw [whileUsed_eq h.2.1 _ (show 0 + 32 ≤ 32 by omega), hall, Prog.bind_assoc]
    exact wp_bind.mpr (each_talk (fun t ht _ _ hR => ih (h.2.2 t ht) hR) (wp_bind.mpr (wp_ret.mpr (wp_ret.mpr hQ))))

/-- `cat_file` sends the data zones of the file in order. -/
theorem FileLayout.catFile_talk (hid : 4 ≤ id) (h : FileLayout s.zones id kids) {A : Session}
    {Q : Unit → Store nb × Session → Prop} (hQ : Q () (s, A)) :
    wp (storeSem P).talk (catFile id) Q (s, exchanges ((dataZones kids).map IsText) A) := by
  have hkids : wp (storeSem P).talk (eachKid catLevel kids) Q (s, exchanges ((dataZones kids).map IsText) A) := by
    have hrep := h.rep
    clear h
    induction kids with
    | nil => exact wp_ret.mpr hQ
    | cons t row ih =>
      unfold dataZones
      rw [List.flatMap_cons, List.map_append, exchanges_append]
      exact wp_bind.mpr (catLevel_talk (hrep t List.mem_cons_self) (ih fun t ht => hrep t (List.mem_cons_of_mem _ ht)))
  unfold catFile
  refine wp_bind.mpr (readZone_talk hid ?_)
  exact (congrArg (fun p => wp (storeSem P).talk p Q _) (whilePtrs_eq h.holds h.levels catLevel)).mpr hkids

/-- `update_size` counts the inode and the zones of the file. -/
theorem FileLayout.updateSize_spec (h : FileLayout s.zones id kids) :
    wp (storeSem P) (updateSize (s.zones id)) (fun size s' => s' = s ∧ size = 1 + (kids.flatMap (·.2.ids)).length) s :=
  updateSize_row h.holds h.levels (fun t ht => (h.rep t ht).refs) fun t ht => (h.full t ht).wide

end

/-! ## `cat` -/

theorem FileLayout.catComplete_iff {s : Store} {id : Int} {kids : List Kid} (hid : 4 ≤ id) (h : FileLayout s.zones id kids) :
    CatComplete s id kids ↔ CatCounted (dataZones kids).length := by
  have hlt := h.length_ids_lt
  have hsize : ∀ size : Int, size = 1 + (kids.flatMap (·.2.ids)).length →
      (size % 2 ^ 32).toNat = 1 + (kids.flatMap (·.2.ids)).length := by
    rintro size rfl
    omega
  constructor
  · rintro ⟨hcount, -⟩
    obtain ⟨size, s', ⟨-, hlen⟩, -, heq⟩ := store_exists (wp_and hcount h.updateSize_spec)
    rw [hsize size heq] at hlen
    exact h.getCatLen_iff.mp hlen
  · intro hn
    refine ⟨wp_mono h.updateSize_spec ?_, h.catFile_talk hid rfl⟩
    rintro size s' ⟨rfl, heq⟩
    rw [hsize size heq]
    exact ⟨rfl, h.getCatLen_iff.mpr hn⟩

/-- `cat` announces what it sends exactly for these numbers of data zones. -/
theorem cat_complete_iff (s : Store) (id : Int) (kids : List Kid) (hid : 4 ≤ id) (h : FileLayout s.zones id kids) :
    CatComplete s id kids ↔ CatCounted (dataZones kids).length := h.catComplete_iff hid

/-- The file `a` of the sample disk is announced and sent with its two data zones. -/
theorem cat_complete_iff_sample :
    CatComplete sampleDisk 5 [⟨0, (6, sampleText.take 63)⟩, ⟨0, (7, sampleText.drop 63)⟩] := by
  have hlayout : FileLayout sampleDisk.zones 5 [⟨0, (6, sampleText.take 63)⟩, ⟨0, (7, sampleText.drop 63)⟩] := by
    refine ⟨by decide +kernel, rfl, by decide +kernel, fun t ht => ?_, fun t ht => ?_, by decide +kernel, by decide +kernel⟩
    · rw [List.mem_singleton.mp ht]
      show (sampleText.take 63).length = 63
      decide
    · rw [← Option.mem_some.mp ht]
      trivial
  exact (cat_complete_iff sampleDisk 5 _ (by decide) hlayout).mpr (Or.inl (by decide))

/-- A disk with a file of 43 full data zones at zone 5: the zones 6 to 25 directly, and 27 to 49 through the index
    zone 26. -/
def longFile : Store where
  map := (setState (fun _ => 170) 5 iOccupied).getD .zero
  zones id :=
    if id = 5 then (List.range 21).foldl (fun z i => z.setPtr i (6 + i)) (newInode 4 0)
    else if id = 26 then (List.range 23).foldl (fun z i => z.setIdx i (27 + i)) .zero
    else (Bytes.zero : Zone).blit 0 (List.replicate 63 97 ++ [0])

def longFileKids : List Kid :=
  (List.range 20).map (fun i : Nat => ⟨0, (6 + (i : Int), List.replicate 63 97)⟩) ++
    [⟨1, ((26 : Int), (List.range 23).map fun i : Nat => (27 + (i : Int), List.replicate 63 97))⟩]

theorem Holds.of_range {get : Nat → Int} {cap : Nat} {ids : List Int}
    (h : (List.range cap).map get = ids ++ List.replicate (cap - ids.length) 0) (hne : ∀ z ∈ ids, z ≠ 0) :
    Holds get cap ids := by
  have hlen := congrArg List.length h
  rw [List.length_map, List.length_range, List.length_append, List.length_replicate] at hlen
  have hget : ∀ i < cap, some (get i) = (ids ++ List.replicate (cap - ids.length) 0)[i]? := by
    intro i hi
    rw [← h]
    simp [hi]
  refine ⟨by omega, fun i hi => ?_, fun i hle hi => ?_, hne⟩
  · have hi' := hget i (by omega)
    rw [List.getElem?_append_left hi, List.getElem?_eq_getElem hi] at hi'
    exact Option.some.inj hi'
  · have hi' := hget i hi
    rw [List.getElem?_append_right hle, List.getElem?_replicate, if_pos (by omega)] at hi'
    exact Option.some.inj hi'

theorem longFile_data {id : Int} (h4 : 4 ≤ id) (h5 : id ≠ 5) (h26 : id ≠ 26) :
    FileTree.Rep (n := 0) longFile.zones (id, List.replicate 63 97) := by
  refine ⟨h4, ?_⟩
  show (if id = 5 then _ else if id = 26 then _ else (Bytes.zero : Zone).blit 0 (List.replicate 63 97 ++ [0])).HasStr 0 _
  rw [if_neg h5, if_neg h26]
  exact Bytes.hasStr_blit (by decide) (by decide)

theorem longFile_rep : FileRep longFile 5 longFileKids where
  holds := Holds.of_range (by decide +kernel) (by decide +kernel)
  levels := by decide
  rep := by
    intro t ht
    rcases List.mem_append.mp ht with ht | ht
    · obtain ⟨i, hi, rfl⟩ := List.mem_map.mp ht
      have hi := List.mem_range.mp hi
      exact longFile_data (by omega) (by omega) (by omega)
    · rw [List.mem_singleton.mp ht]
      refine ⟨by decide, Holds.of_range (by decide +kernel) (by decide +kernel), fun k hk => ?_⟩
      obtain ⟨j, -, rfl⟩ := List.mem_map.mp hk
      exact longFile_data (by omega) (by omega) (by omega)
  full := by
    intro t ht
    rw [longFileKids, List.dropLast_concat] at ht
    obtain ⟨i, -, rfl⟩ := List.mem_map.mp ht
    exact List.length_replicate
  packed := by
    intro t ht
    rw [longFileKids, List.getLast?_concat, Option.mem_some] at ht
    rw [← ht]
    refine ⟨by decide, fun k hk => ?_, fun _ _ => trivial⟩
    obtain ⟨i, -, rfl⟩ := List.mem_map.mp (List.mem_of_mem_dropLast hk)
    exact List.length_replicate
  nodup := by decide +kernel
  used := by
    have hall : ∀ z ∈ longFileKids.flatMap (·.2.ids), longFile.state z = some fOccupied := by decide +kernel
    exact fun z hz => Store.used_of_state (hall z hz) (by decide)
  not_mem := by decide +kernel

/-- Of the 43 data zones of this file `cat` announces 42. -/
theorem cat_long_file : ¬∀ s id kids, 4 ≤ id → FileRep s id kids → CatComplete s id kids := by
  intro hall
  have hcounted := (longFile_rep.layout.catComplete_iff (by decide)).mp
    (hall longFile 5 longFileKids (by decide) longFile_rep)
  have hlen : (dataZones longFileKids).length = 43 := by decide
  unfold CatCounted at hcounted
  omega

end MiniFs
