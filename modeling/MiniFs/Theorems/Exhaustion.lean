import MiniFs.Theorems.AppendFile

/-! # Appending on a full disk

Here `get_free_id` returns -1 when no zone is free. `append` says that it succeeds whatever `add_data` has done, so what
it says is right only when there are zones for the whole string and the file stays within its limit. -/

namespace MiniFs
open Interact Memory FileTree

/-! ## The zones that a file takes -/

namespace FileTree

theorem cap_pos (n : Nat) : 0 < cap n := Nat.mul_pos (by omega) (Nat.pow_pos (by omega))

/-- New trees before the one that takes the last characters are full. -/
theorem needNew_add {n : Nat} {below : Nat → Nat} (hbelow : ∀ y, cap n ≤ y → 1 + below y = fullIds n) (i m y : Nat) :
    needNew n below (i + m) (i * cap n + y) = i * fullIds n + needNew n below m y := by
  have hcap := cap_pos n
  induction i with
  | zero => rw [Nat.zero_add, Nat.zero_mul, Nat.zero_mul, Nat.zero_add, Nat.zero_add]
  | succ i ih =>
    have hsplit : (i + 1) * cap n + y = cap n + (i * cap n + y) := by rw [Nat.succ_mul]; omega
    have hfull := hbelow ((i + 1) * cap n + y) (by omega)
    rw [show i + 1 + m = i + m + 1 by omega, needNew_succ (by omega), hfull, hsplit, Nat.add_sub_cancel_left, ih,
      Nat.succ_mul]
    omega

theorem needBelow_full (n : Nat) {chars : Nat} (h : cap n ≤ chars) : 1 + needBelow n chars = fullIds n := by
  induction n generalizing chars with
  | zero => rfl
  | succ n ih =>
    obtain ⟨y, rfl⟩ := Nat.exists_eq_add_of_le h
    have hadd := needNew_add (fun y hy => ih hy) 32 0 y
    show 1 + needNew n (needBelow n) 32 (cap (n + 1) + y) = 1 + 32 * fullIds n
    rw [cap_succ]
    exact congrArg (1 + ·) hadd

theorem needNew_zero (n : Nat) (below : Nat → Nat) (m : Nat) : needNew n below m 0 = 0 := by
  cases m <;> rfl

section
variable {n : Nat} {zones : Int → Zone} {id : Int} {init : List (FileTree n)} {last : FileTree n}

theorem Packed.length_concat (h : Packed (n := n + 1) (id, init ++ [last]))
    (hrep : Rep (n := n + 1) zones (id, init ++ [last])) :
    init.length ≤ 31 ∧ last.Packed ∧ last.Rep zones ∧
      (ids (n := n + 1) (id, init ++ [last])).length = 1 + init.length * fullIds n + last.ids.length ∧
      (text (n := n + 1) (id, init ++ [last])).length = init.length * cap n + last.text.length := by
  have hfull : ∀ t ∈ init, t.Full := fun t ht => h.2.1 t (by rwa [List.dropLast_concat])
  have hle : init.length + 1 ≤ 32 := by simpa using hrep.2.1.le
  refine ⟨by omega, h.2.2 last (by simp), hrep.2.2 last (by simp), ?_, ?_⟩
  · show (id :: (init ++ [last]).flatMap ids).length = _
    rw [List.length_cons, flatMap_concat, List.length_append, length_flatMap_const fun t ht => (hfull t ht).length_ids]
    omega
  · show ((init ++ [last]).flatMap text).length = _
    rw [flatMap_concat, List.length_append, length_flatMap_const fun t ht => (hfull t ht).length_text]

end

/-- With the zones for more characters a tree has as many as a new one for all of them. -/
theorem Packed.ids_add_need {n : Nat} {zones : Int → Zone} {t : FileTree n} (hrep : t.Rep zones) (h : t.Packed) {chars : Nat}
    (hpos : 0 < chars) : t.ids.length + t.need chars = 1 + needBelow n (t.text.length + chars) := by
  induction n generalizing chars with
  | zero => rfl
  | succ n ih =>
    obtain ⟨id, kids⟩ := t
    obtain ⟨init, last, rfl⟩ := (List.eq_nil_or_concat' kids).resolve_left h.1
    obtain ⟨hle, hpacked, hlast, hids, htext⟩ := h.length_concat hrep
    have hroom := hpacked.ready.text_add_room hlast
    have hsub : last.text.length + chars - cap n = chars - last.room := by omega
    have hlen : 32 = init.length + (31 - init.length + 1) := by omega
    have hneed : needBelow (n + 1) (init.length * cap n + (last.text.length + chars)) =
        init.length * fullIds n + needNew n (needBelow n) (31 - init.length + 1) (last.text.length + chars) := by
      rw [← needNew_add fun y hy => needBelow_full n hy, ← hlen]
      rfl
    have hlast' := ih hlast hpacked hpos
    rw [hids, htext, need_concat, Nat.add_assoc (init.length * cap n), hneed, needNew_succ (by omega), hsub]
    omega

/-- A tree has at least as many zones as a new one for its text. -/
theorem Packed.need_le_ids {n : Nat} {zones : Int → Zone} {t : FileTree n} (hrep : t.Rep zones) (h : t.Packed) :
    1 + needBelow n t.text.length ≤ t.ids.length := by
  induction n with
  | zero => exact Nat.le_refl 1
  | succ n ih =>
    obtain ⟨id, kids⟩ := t
    obtain ⟨init, last, rfl⟩ := (List.eq_nil_or_concat' kids).resolve_left h.1
    obtain ⟨hle, hpacked, hlast, hids, htext⟩ := h.length_concat hrep
    have hroom := hpacked.ready.text_add_room hlast
    have hlen : 32 = init.length + (31 - init.length + 1) := by omega
    have hneed : needBelow (n + 1) (init.length * cap n + last.text.length) =
        init.length * fullIds n + needNew n (needBelow n) (31 - init.length + 1) last.text.length := by
      rw [← needNew_add fun y hy => needBelow_full n hy, ← hlen]
      rfl
    have hlast' := ih hlast hpacked
    rw [hids, htext, hneed]
    by_cases hzero : last.text.length = 0
    · rw [hzero, needNew_zero]
      omega
    · rw [needNew_succ hzero, show last.text.length - cap n = 0 by omega, needNew_zero]
      omega

theorem needFrom_add (i m y : Nat) :
    needFrom ptrLevel (i + m) 0 (fullText i + y) = fullRow i + needFrom ptrLevel m i y := by
  induction i generalizing m y with
  | zero => rw [Nat.zero_add, fullText, fullRow, Nat.zero_add, Nat.zero_add]
  | succ i ih =>
    have hcap := cap_pos (ptrLevel i)
    have hbelow := @needBelow_full (ptrLevel i) (cap (ptrLevel i) + y) (by omega)
    rw [show i + 1 + m = i + (m + 1) by omega, fullText, Nat.add_assoc, ih, needFrom_succ (by omega), Nat.add_sub_cancel_left,
      fullRow]
    omega

end FileTree

section
variable {nb : Nat} {s s' : Store nb} {id id' : Int} {kids kids' : List Kid}

theorem FileRep.split {init : List Kid} {last : Kid} (h : FileRep s id (init ++ [last])) :
    init.length < 24 ∧ last.1 = ptrLevel init.length ∧ last.2.Packed ∧ last.2.Rep s.zones ∧
      ((init ++ [last]).flatMap (·.2.ids)).length = fullRow init.length + last.2.ids.length ∧
      ((init ++ [last]).flatMap (·.2.text)).length = fullText init.length + last.2.text.length := by
  have hlevels := h.levels
  have hle := h.length_le
  rw [List.length_append, List.length_singleton] at hlevels hle
  obtain ⟨hlinit, hlevel⟩ := levels_split hlevels
  have hfull : ∀ t ∈ init, t.2.Full := fun t ht => h.full t (by rwa [List.dropLast_concat])
  refine ⟨hle, hlevel, h.packed last (by simp), h.rep last (by simp), ?_, ?_⟩
  · rw [flatMap_concat, List.length_append, length_ids_full hlinit hfull]
  · rw [flatMap_concat, List.length_append, length_text_full hlinit hfull]

/-- With the zones for more characters a file has as many as a new one for all of them. -/
theorem FileRep.ids_add_need (h : FileRep s id kids) {chars : Nat} (hpos : 0 < chars) :
    (kids.flatMap (·.2.ids)).length + fileNeed kids chars = needFrom ptrLevel 24 0 ((content kids).length + chars) := by
  unfold content
  rcases List.eq_nil_or_concat' kids with rfl | ⟨init, last, rfl⟩
  · show 0 + (0 + needFrom ptrLevel 24 0 chars) = needFrom ptrLevel 24 0 (0 + chars)
    rw [Nat.zero_add, Nat.zero_add, Nat.zero_add]
  obtain ⟨hlt, hlevel, hpacked, hrep, hids, htext⟩ := h.split
  have hroom := hpacked.ready.text_add_room hrep
  have hsub : last.2.text.length + chars - cap (ptrLevel init.length) = chars - last.2.room := by rw [← hlevel]; omega
  have hlast := hpacked.ids_add_need hrep hpos
  have hlen : 24 = init.length + (23 - init.length + 1) := by omega
  rw [hids, htext, fileNeed_concat, Nat.add_assoc (fullText init.length)]
  conv_rhs => rw [hlen, needFrom_add, needFrom_succ (by omega), hsub, ← hlevel]
  omega

/-- A file has at least as many zones as a new one for its content. -/
theorem FileRep.need_le_ids (h : FileRep s id kids) :
    needFrom ptrLevel 24 0 (content kids).length ≤ (kids.flatMap (·.2.ids)).length := by
  unfold content
  rcases List.eq_nil_or_concat' kids with rfl | ⟨init, last, rfl⟩
  · exact Nat.le_refl 0
  obtain ⟨hlt, hlevel, hpacked, hrep, hids, htext⟩ := h.split
  have hroom := hpacked.ready.text_add_room hrep
  have hlast := hpacked.need_le_ids hrep
  have hlen : 24 = init.length + (23 - init.length + 1) := by omega
  rw [hids, htext]
  conv_lhs => rw [hlen, needFrom_add]
  by_cases hzero : last.2.text.length = 0
  · rw [hzero, needFrom_zero]
    omega
  · rw [needFrom_succ hzero, ← hlevel, show last.2.text.length - cap last.1 = 0 by omega, needFrom_zero]
    omega

end

/-! ## The operations on a full disk -/

/-- The store with a `get_free_id` that returns -1 and has no effect when no zone is free. -/
def drainSem : Sem fsSig Store where
  op e s o := match e with
    | .getFreeId b => s.free = 0 ∧ o = some ((-1 : Int), s) ∨ s.free ≠ 0 ∧ storeOp .all (.getFreeId b) s o
    | e => storeOp .all e s o
  write _ _ o := o = none
  read _ _ o := o = none

/-- With no free zone the loop of `get_free_id` runs off the bitmap. -/
theorem getFreeId_of_free {s : Store} (b : Byte) (h : s.free = 0) : getFreeId s.map b = none := by
  rcases @getFreeIdFrom_spec 256 s.map b 32764 4 (by omega) (by omega) (by omega) with ⟨i, hi, hlt, hst, -⟩ | ⟨hnone, -⟩
  · exfalso
    have hmem : i ∈ (Finset.range 1024).filter fun i : Nat => 4 ≤ i ∧ s.state i = some unoccupied :=
      Finset.mem_filter.mpr ⟨Finset.mem_range.mpr hlt, hi, hst⟩
    exact absurd (Finset.card_pos.mpr ⟨i, hmem⟩) (by rw [← Store.free, h]; exact Nat.lt_irrefl 0)
  · exact hnone

/-- Where the bitmap of the source is left, `get_free_id` may do anything. -/
theorem drainSem_le : drainSem.Le (storeSem .all) where
  op e s := by
    cases e with
    | getFreeId b =>
      by_cases hfree : s.free = 0
      · refine Or.inl ⟨?_, fun h => absurd h Bool.false_ne_true⟩
        rw [getFreeId_of_free b hfree]
        rfl
      · exact Or.inr fun o ho => (ho.resolve_left fun h => hfree h.1).2
    | _ => exact Or.inr fun o ho => ho
  write _ _ := Or.inl rfl
  read _ _ := Or.inl rfl

theorem drainSem_total : drainSem.Total := by
  intro e s
  cases e with
  | getFreeId b =>
    by_cases hfree : s.free = 0
    · exact ⟨some ((-1 : Int), s), Or.inl ⟨hfree, rfl⟩⟩
    · obtain ⟨o, ho⟩ := @storeSem_total 256 .all rfl rfl (.getFreeId b) s
      exact ⟨o, Or.inr ⟨hfree, ho⟩⟩
  | getState id => exact storeSem_total (P := .all) rfl rfl (.getState id) s
  | setFreeId id => exact storeSem_total (P := .all) rfl rfl (.setFreeId id) s
  | readZone id => exact storeSem_total (P := .all) rfl rfl (.readZone id) s
  | writeZone id z => exact storeSem_total (P := .all) rfl rfl (.writeZone id z) s
  | time => exact storeSem_total (P := .all) rfl rfl .time s
  | stack pDir name => exact storeSem_total (P := .all) rfl rfl (.stack pDir name) s
  | unset => exact storeSem_total (P := .all) rfl rfl .unset s

/-! ## `append` -/

/-- The file is well-formed, it has its old zones and those that were allocated, and its content is what the result
    `r` says. -/
def AppendKept (s : Store) (id : Int) (kids : List Kid) (str : Str) (r : Nat) (s' : Store) : Prop :=
  ∃ (kids' : List Kid) (new : List Int), FileRep s' id kids' ∧ (s'.zones id).size = 1 + (kids'.flatMap (·.2.ids)).length ∧
    s.Takes new s' ∧ (kids'.flatMap (·.2.ids)).Perm (kids.flatMap (·.2.ids) ++ new) ∧
    content kids' = if r = 0 then content kids ++ str else content kids

/-- The zones that are taken are no longer free. -/
theorem Store.Takes.free_add {nb : Nat} [Sized nb] {s s' : Store nb} {new : List Int} (h : s.Takes new s') :
    s'.free + new.length = s.free := by
  have hmap : (new.map Int.toNat).Nodup := h.nodup.map_on fun a ha b hb hab => by
    have := (h.free a ha).1
    have := (h.free b hb).1
    omega
  have hmem : ∀ i : Nat, i ∈ (new.map Int.toNat).toFinset ↔ (i : Int) ∈ new := fun i => by
    rw [List.mem_toFinset, List.mem_map]
    constructor
    · rintro ⟨z, hz, rfl⟩
      have := (h.free z hz).1
      rwa [show ((z.toNat : Nat) : Int) = z by omega]
    · exact fun hi => ⟨i, hi, Int.toNat_natCast i⟩
  have hsub : (new.map Int.toNat).toFinset ⊆
      (Finset.range (4 * nb)).filter fun i : Nat => 4 ≤ i ∧ s.state i = some unoccupied := by
    intro i hi
    obtain ⟨h4, hst⟩ := h.free i ((hmem i).mp hi)
    have hlt := Store.lt_zones hst
    simp only [Finset.mem_filter, Finset.mem_range]
    exact ⟨by omega, by omega, hst⟩
  have hrest : ((Finset.range (4 * nb)).filter fun i : Nat => 4 ≤ i ∧ s'.state i = some unoccupied) =
      ((Finset.range (4 * nb)).filter fun i : Nat => 4 ≤ i ∧ s.state i = some unoccupied) \ (new.map Int.toNat).toFinset := by
    ext i
    rw [Finset.mem_sdiff, hmem, Finset.mem_filter, Finset.mem_filter, h.state]
    by_cases hi : (i : Int) ∈ new
    · rw [if_pos hi]
      exact ⟨fun hi' => absurd (Option.some.inj hi'.2.2) (by decide), fun hi' => absurd hi hi'.2⟩
    · rw [if_neg hi]
      exact ⟨fun hi' => ⟨hi', hi⟩, fun hi' => hi'.1⟩
  have hcard := Finset.card_sdiff_add_card_eq_card hsub
  rw [← hrest, List.toFinset_card_of_nodup hmap, List.length_map] at hcard
  exact hcard

section
variable {s s' : Store} {id : Int} {kids : List Kid} {str : Str}

/-- A success that is right needs the zones and stays within the limit. -/
theorem AppendKept.room (hfile : FileRep s id kids) (hne : str ≠ []) (h : AppendKept s id kids str 0 s') :
    fileNeed kids str.length ≤ s.free ∧ str.length ≤ fileRoom kids := by
  obtain ⟨kids', new, hfile', -, htakes, hids, htext⟩ := h
  rw [if_pos rfl] at htext
  have hlen := congrArg List.length htext
  rw [List.length_append] at hlen
  have hcount := hids.length_eq
  rw [List.length_append] at hcount
  have hneed := hfile.ids_add_need (List.length_pos_of_ne_nil hne)
  have hle := hfile'.need_le_ids
  rw [hlen] at hle
  have hfree := htakes.free_add
  have hroom := hfile.text_add_room
  have hroom' := hfile'.text_add_room
  unfold content at hlen
  omega

theorem drain_getState {b : Byte} {Q : Byte → Store → Prop} (hs : s.state id = some b)
    (h : wp drainSem (Fs.getState id) Q s) : Q b s := by
  refine wp_ret.mp ((wp_op_eq fun o => ?_).mp h)
  show o = (s.state id).map _ ↔ _
  rw [hs]
  rfl

theorem drain_readZone {Q : Option Zone → Store → Prop} (hid : 4 ≤ id) (h : wp drainSem (Fs.readZone id) Q s) :
    Q (some (s.zones id)) s := by
  refine wp_ret.mp ((wp_op_eq fun o => ?_).mp h)
  show o = some (if id < 4 then none else some (s.zones id), s) ↔ _
  rw [if_neg (by omega)]
  rfl

theorem drain_getFreeId {b : Byte} {Q : Int → Store → Prop} (hfree : s.free = 0) :
    wp drainSem (Fs.getFreeId b) Q s ↔ Q (-1) s := by
  refine (wp_op_eq fun o => ?_).trans wp_ret
  constructor
  · rintro (⟨-, rfl⟩ | ⟨hne, -⟩)
    · rfl
    · exact absurd hfree hne
  · rintro rfl
    exact Or.inl ⟨hfree, rfl⟩

theorem drain_exists {α : Type} {p : FsM α} {Q : α → Store → Prop} (h : wp drainSem p Q s) : ∃ a t, Q a t :=
  Sem.Alone.exists_of_wp ⟨drainSem_total, fun _ _ => rfl, fun _ _ => rfl⟩ h

/-- Every run of `append` on a file ends with a success. -/
theorem drain_append {pwd : PathT} {path : Str} {Q : Nat → Store → Prop}
    (hpath : wp drainSem (getPath pwd path) (fun r t => t = s ∧ ∃ p, r.1 = some p ∧ p.id = id) s)
    (hstate : s.state id = some iOccupied) (hne : str ≠ []) (h : wp drainSem (append pwd path str) Q s) : ∃ s', Q 0 s' := by
  unfold append at h
  obtain ⟨⟨r, cut⟩, t, ⟨rfl, p, rfl, rfl⟩, hrest⟩ := drain_exists (wp_and hpath (wp_bind.mp h))
  dsimp only at hrest
  have hread := drain_getState hstate (wp_bind.mp hrest)
  rw [if_neg (not_not.mpr rfl)] at hread
  have hadd := drain_readZone (Store.le_of_state hstate (by decide)) (wp_bind.mp hread)
  dsimp only at hadd
  rw [if_pos (List.length_pos_of_ne_nil hne)] at hadd
  obtain ⟨inode, t, hwrite⟩ := drain_exists (wp_bind.mp hadd)
  obtain ⟨-, s', hret⟩ := drain_exists (wp_bind.mp hwrite)
  exact ⟨s', wp_ret.mp hret⟩

theorem FileRep.append_iff {pwd : PathT} {path : Str}
    (hpath : wp (storeSem .all) (getPath pwd path) (fun r t => t = s ∧ ∃ p, r.1 = some p ∧ p.id = id) s)
    (hstate : s.state id = some iOccupied) (hfile : FileRep s id kids) (hne : str ≠ []) (hnul : NulFree str)
    (hshort : str.length < 2 ^ 15) :
    wp drainSem (append pwd path str) (AppendKept s id kids str) s ↔
      fileNeed kids str.length ≤ s.free ∧ str.length ≤ fileRoom kids := by
  constructor
  · intro h
    obtain ⟨s', hkept⟩ := drain_append (wp_of_le drainSem_le hpath) hstate hne h
    exact hkept.room hfile hne
  · rintro ⟨hroom, hlen⟩
    have hused : s.Used id := ⟨_, hstate, by decide⟩
    refine wp_of_le drainSem_le (append_eq hpath hstate hne ?_)
    refine wp_mono (appendTo_spec (k := 0) (Store.le_of_state hstate (by decide)) hused hfile hne hnul hshort
      (Or.inr hroom)) ?_
    rintro - s' ⟨len, kids', new, happ, -⟩
    have hfit : len = str.length := by
      have := happ.len_eq
      omega
    refine ⟨kids', new, happ.file, happ.size, happ.takes, happ.ids, ?_⟩
    have htext := happ.text
    rwa [hfit, List.take_length] at htext

end

/-- What `append` says is right exactly when there are zones for the whole string and the file has room for it. -/
theorem append_kept_iff (s : Store) (pwd : PathT) (path str : Str) (id : Int) (kids : List Kid)
    (hpath : wp (storeSem .all) (getPath pwd path) (fun r t => t = s ∧ ∃ p, r.1 = some p ∧ p.id = id) s)
    (hstate : s.state id = some iOccupied) (hfile : FileRep s id kids) (hne : str ≠ []) (hnul : NulFree str)
    (hshort : str.length < 2 ^ 15) :
    wp drainSem (append pwd path str) (AppendKept s id kids str) s ↔
      fileNeed kids str.length ≤ s.free ∧ str.length ≤ fileRoom kids := hfile.append_iff hpath hstate hne hnul hshort

theorem append_kept_iff_oneFile :
    wp drainSem (append .root (lit "f") (lit "hi")) (AppendKept oneFile 5 [] (lit "hi")) oneFile :=
  (append_kept_iff oneFile .root (lit "f") (lit "hi") 5 [] oneFile_path (by decide +kernel)
    (fileRep_nil fun _ hi => ptr_newInode hi) (by decide) (by decide) (by decide)).mpr ⟨oneFile_free, by decide⟩

/-- The disk with one file and no free zone. -/
def fullDisk : Store where
  map := ((setState (fun _ => 170) 4 dOccupied).bind (setState · 5 iOccupied)).getD .zero
  zones := oneFile.zones

theorem fullDisk_free : fullDisk.free = 0 := by
  have hused : ∀ i : Nat, i < 1024 → fullDisk.state i ≠ some unoccupied := fun i hi => by
    obtain ⟨m, hm, hstate⟩ := @setState_spec 256 (fun _ => 170) 4 dOccupied (by omega) (by omega) isState_dOccupied
    obtain ⟨m', hm', hstate'⟩ := @setState_spec 256 m 5 iOccupied (by omega) (by omega) isState_iOccupied
    have hmap : fullDisk.map = m' := by
      unfold fullDisk
      dsimp only
      rw [hm, Option.bind_some, hm']
      rfl
    unfold Store.state
    rw [hmap, hstate', hstate, getState_filled (by omega)]
    split
    · decide
    split
    · decide
    · decide
  unfold Store.free
  rw [Finset.card_eq_zero, Finset.filter_eq_empty_iff]
  rintro i hi ⟨-, hst⟩
  exact hused i (by simpa using hi) hst

/-- Two characters for the empty file of a full disk: `append` succeeds and stores none. -/
theorem append_full_disk : ¬∀ s pwd path str id kids,
    wp (storeSem .all) (getPath pwd path) (fun r t => t = s ∧ ∃ p, r.1 = some p ∧ p.id = id) s →
      s.state id = some iOccupied → FileRep s id kids → str ≠ [] → NulFree str → str.length < 2 ^ 15 →
        wp drainSem (append pwd path str) (AppendKept s id kids str) s := by
  intro hall
  have hpath := path_f (s := fullDisk) (by decide +kernel) oneFile_entries
  have hstate : fullDisk.state 5 = some iOccupied := by decide +kernel
  have hfile : FileRep fullDisk 5 [] := fileRep_nil fun _ hi => ptr_newInode hi
  have hroom := (hfile.append_iff hpath hstate (by decide) (by decide) (by decide)).mp
    (hall fullDisk .root (lit "f") (lit "hi") 5 [] hpath hstate hfile (by decide) (by decide) (by decide))
  have hneed : fileNeed [] (lit "hi").length = 1 := by decide
  rw [hneed, fullDisk_free] at hroom
  omega

end MiniFs
