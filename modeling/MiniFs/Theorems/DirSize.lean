import MiniFs.Theorems.Runs
import Mathlib.Data.Int.Interval

/-! # The size of a directory

`get_size` goes over the slots of a dentry and of its chain and adds up the sizes of what they refer to. On a directory
tree that is the number of its zones. -/

namespace MiniFs
open Interact Memory

/-! ## The loop over the slots -/

/-- The loop adds to `size` what belongs to the entries of its slots, and stops at the first free one. -/
theorem sizeSubs_spec {nb : Nat} {P : Policy} {s : Store nb} {L : Layout} {z : Int} {es : List Entry}
    {sizeOf : Zone → FsM Int} {R : Entry → Int → Prop} {n i : Nat} {size : Int} (h : Entries L (s.zones z) es)
    (hi : i ≤ es.length) (hn : i + n = L.subs)
    (hes : ∀ e ∈ es, 4 ≤ e.2 ∧ (s.state e.2 = some iOccupied ∧ R e (s.zones e.2).size ∨
      s.state e.2 = some dOccupied ∧ wp (storeSem P) (sizeOf (s.zones e.2)) (fun r s' => s' = s ∧ R e r) s)) :
    wp (storeSem P) (sizeSubs sizeOf L (s.zones z) n i size)
      (fun r s' => s' = s ∧ ∃ sizes, List.Forall₂ R (es.drop i) sizes ∧
        r = if es.length < L.subs then .error (size + sizes.sum) else .ok (size + sizes.sum)) s := by
  induction n generalizing i size with
  | zero =>
    have hle := h.le
    refine wp_ret.mpr ⟨rfl, [], ?_, ?_⟩
    · rw [List.drop_eq_nil_of_le (by omega)]
      exact .nil
    · rw [if_neg (by omega)]
      simp
  | succ n ih =>
    unfold sizeSubs
    by_cases hlt : i < es.length
    · obtain ⟨hid, hne, -⟩ := h.get hlt
      obtain ⟨h4, hstate⟩ := hes es[i] (List.getElem_mem hlt)
      have hnext : ∀ v, R es[i] v → wp (storeSem P) (sizeSubs sizeOf L (s.zones z) n (i + 1) (size + v))
          (fun r s' => s' = s ∧ ∃ sizes, List.Forall₂ R (es.drop i) sizes ∧
            r = if es.length < L.subs then .error (size + sizes.sum) else .ok (size + sizes.sum)) s := by
        intro v hv
        refine wp_mono (ih (by omega) (by omega)) ?_
        rintro r s' ⟨rfl, sizes, hsizes, rfl⟩
        refine ⟨rfl, v :: sizes, ?_, ?_⟩
        · rw [List.drop_eq_getElem_cons hlt]
          exact .cons hv hsizes
        · rw [List.sum_cons, Int.add_assoc]
      rw [hid, if_neg hne]
      rcases hstate with ⟨hs, hv⟩ | ⟨hs, hwp⟩
      · refine wp_bind.mpr (getState_spec hs ?_)
        rw [if_pos rfl]
        exact wp_bind.mpr (readZone_spec h4 (hnext _ hv))
      · refine wp_bind.mpr (getState_spec hs ?_)
        rw [if_neg (by decide)]
        refine wp_bind.mpr (getState_spec hs ?_)
        rw [if_pos rfl]
        refine wp_bind.mpr (readZone_spec h4 (wp_seq hwp ?_))
        rintro r s' ⟨rfl, hr⟩
        exact hnext r hr
    · rw [if_pos ((h.subId_eq_zero (by omega)).mpr (by omega))]
      refine wp_ret.mpr ⟨rfl, [], ?_, ?_⟩
      · rw [List.drop_eq_nil_of_le (by omega)]
        exact .nil
      · rw [if_pos (by omega)]
        simp

theorem sum_nonneg_of_forall₂ {es : List Entry} {sizes : List Int}
    (h : List.Forall₂ (fun (_ : Entry) (v : Int) => 0 ≤ v) es sizes) : 0 ≤ sizes.sum := by
  induction h with
  | nil => exact Int.le_refl _
  | cons hv _ ih =>
    rw [List.sum_cons]
    omega

/-! ## Directory trees -/

/-- The zones of the directory or file at zone `id`, its own first. -/
inductive Subtree {nb : Nat} (s : Store nb) : Int → List Int → Prop
  | file {id : Int} {kids : List Kid} (state : s.state id = some iOccupied)
      (holds : Holds (s.zones id).ptr 24 (kids.map (·.2.id)))
      (levels : kids.map Sigma.fst = (List.range kids.length).map ptrLevel) (refs : ∀ t ∈ kids, t.2.Refs s.zones)
      (size : (s.zones id).size = (id :: kids.flatMap (·.2.ids)).length) : Subtree s id (id :: kids.flatMap (·.2.ids))
  | dir {id : Int} {es : List Entry} {rest : List Seg} (zs : Entry → List Int) (state : s.state id = some dOccupied)
      (chain : Chain s.zones dentry id es rest) (subs : ∀ e ∈ entriesOf es rest, Subtree s e.2 (zs e)) :
      Subtree s id (id :: rest.map Prod.fst ++ (entriesOf es rest).flatMap zs)

section
variable {nb : Nat} {P : Policy} {s : Store nb} {d id z : Int} {es : List Entry} {rest : List Seg} {zs : List Int}

theorem Subtree.le (h : Subtree s id zs) : 4 ≤ id := by
  cases h with
  | file state _ _ _ _ => exact Store.le_of_state state (by decide)
  | dir _ state _ _ => exact Store.le_of_state state (by decide)

theorem Subtree.cases_state (h : Subtree s id zs) :
    (s.state id = some iOccupied ∧ (s.zones id).size = zs.length) ∨
      ∃ es rest f, s.state id = some dOccupied ∧ Chain s.zones dentry id es rest ∧
        (∀ e ∈ entriesOf es rest, Subtree s e.2 (f e)) ∧
        zs = id :: rest.map Prod.fst ++ (entriesOf es rest).flatMap f := by
  cases h with
  | file state _ _ _ size => exact Or.inl ⟨state, size⟩
  | dir f state chain subs => exact Or.inr ⟨_, _, f, state, chain, subs, rfl⟩

theorem sum_of_forall₂ {f : Entry → List Int} {sizes : List Int}
    (h : List.Forall₂ (fun e v => v = ((f e).length : Int)) es sizes) : sizes.sum = (es.flatMap f).length := by
  induction h with
  | nil => rfl
  | cons hv _ ih => rw [List.sum_cons, ih, hv, List.flatMap_cons, List.length_append, Nat.cast_add]

theorem length_le_flatMap {f : Entry → List Int} {e : Entry} (he : e ∈ es) :
    (f e).length ≤ (es.flatMap f).length :=
  (List.sublist_flatten_of_mem (List.mem_map_of_mem he)).length_le

/-- `get_size` and `get_size_cont` count the zones of the chain from their own on and those of what it lists. -/
theorem getSizeAt_exact {fuel : Nat} {L : Layout} {f : Entry → List Int} (h : Chain s.zones L z es rest)
    (hsubs : ∀ e ∈ entriesOf es rest, Subtree s e.2 (f e))
    (hfuel : 1 + rest.length + ((entriesOf es rest).flatMap f).length ≤ fuel) :
    wp (storeSem P) (getSizeAt fuel L (s.zones z))
      (fun r s' => s' = s ∧ r = 1 + rest.length + ((entriesOf es rest).flatMap f).length) s := by
  induction fuel generalizing L z es rest f with
  | zero => omega
  | succ fuel ih =>
    unfold getSizeAt
    have hloop := @sizeSubs_spec nb P s L z es (getSizeAt fuel dentry) (fun e v => v = ((f e).length : Int)) L.subs 0 1
      h.entries (Nat.zero_le _) (Nat.zero_add _) fun e he => by
        have hmem : e ∈ entriesOf es rest := List.mem_append_left _ he
        have hlen := length_le_flatMap (f := f) hmem
        refine ⟨(hsubs e hmem).le, ?_⟩
        rcases (hsubs e hmem).cases_state with ⟨hstate, hsize⟩ | ⟨es', rest', f', hstate, hchain, hsubs', heq⟩
        · exact Or.inl ⟨hstate, hsize⟩
        · have hlen' : (f e).length = 1 + rest'.length + ((entriesOf es' rest').flatMap f').length := by
            rw [heq, List.length_append, List.length_cons, List.length_map]
            omega
          refine Or.inr ⟨hstate, wp_mono (ih hchain hsubs' (by omega)) ?_⟩
          rintro r s' ⟨rfl, hr⟩
          exact ⟨rfl, by rw [hr, hlen']; push_cast; rfl⟩
    refine wp_seq hloop ?_
    rintro r s' ⟨rfl, sizes, hsizes, rfl⟩
    rw [List.drop_zero] at hsizes
    rw [sum_of_forall₂ hsizes]
    cases rest with
    | nil =>
      have hflat : (entriesOf es []).flatMap f = es.flatMap f := by simp [entriesOf]
      rw [hflat]
      by_cases hlt : es.length < L.subs
      · rw [if_pos hlt]
        exact wp_ret.mpr ⟨rfl, by simp⟩
      · rw [if_neg hlt]
        dsimp only
        rw [if_neg (not_not.mpr h.2)]
        exact wp_ret.mpr ⟨rfl, by simp⟩
    | cons seg rest =>
      obtain ⟨-, hfull, hnext, h4, hrest⟩ := h
      have hsplit : entriesOf es (seg :: rest) = es ++ entriesOf seg.2 rest := rfl
      rw [hsplit, List.flatMap_append, List.length_append, List.length_cons] at hfuel ⊢
      rw [if_neg (by omega)]
      dsimp only
      rw [if_pos (by rw [hnext]; omega), hnext]
      refine wp_bind.mpr (readZone_spec h4 ?_)
      refine wp_seq (ih hrest (fun e he => hsubs e (List.mem_append_right _ he)) (by omega)) ?_
      rintro r s'' ⟨rfl, rfl⟩
      refine wp_ret.mpr ⟨rfl, ?_⟩
      push_cast
      omega

/-! ## The zones of a tree -/

theorem Holds.exists_get {get : Nat → Int} {cap : Nat} {ids : List Int} (h : Holds get cap ids) (hz : z ∈ ids) :
    ∃ i, get i = z := by
  obtain ⟨i, hi, rfl⟩ := List.mem_iff_getElem.mp hz
  exact ⟨i, h.used i hi⟩

/-- What an index zone refers to is a 16-bit id. -/
theorem FileTree.Refs.bounds {zones : Int → Zone} {n : Nat} {t : FileTree n} (h : t.Refs zones) (hid : t.id < 32768) :
    ∀ z ∈ t.ids, 4 ≤ z ∧ z < 32768 := by
  induction n with
  | zero =>
    intro z hz
    rw [List.mem_singleton.mp hz]
    exact ⟨h, hid⟩
  | succ n ih =>
    obtain ⟨id, kids⟩ := t
    obtain ⟨h4, hholds, hrefs⟩ := h
    intro z hz
    rcases List.mem_cons.mp hz with rfl | hz
    · exact ⟨h4, hid⟩
    · obtain ⟨k, hk, hz⟩ := List.mem_flatMap.mp hz
      obtain ⟨i, hi⟩ := hholds.exists_get (List.mem_map_of_mem hk)
      exact ih (hrefs k hk) (hi ▸ (Bytes.int16_range _ _).2) z hz

theorem Chain.lt {zones : Int → Zone} {L : Layout} (h : Chain zones L z es rest) :
    (∀ y ∈ rest.map Prod.fst, y < 32768) ∧ ∀ e ∈ entriesOf es rest, e.2 < 32768 := by
  have hentries : ∀ {L : Layout} {z : Zone} {es : List Entry}, Entries L z es → ∀ e ∈ es, e.2 < 32768 :=
    fun {L z es} h e he => by
      obtain ⟨i, hi, rfl⟩ := List.mem_iff_getElem.mp he
      exact (h.get hi).1 ▸ (Bytes.int16_range _ _).2
  induction rest generalizing L z es with
  | nil =>
    refine ⟨fun y hy => absurd hy List.not_mem_nil, fun e he => hentries h.1 e ?_⟩
    simpa [entriesOf] using he
  | cons seg rest ih =>
    obtain ⟨hes, -, hnext, -, hrest⟩ := h
    have hsplit : entriesOf es (seg :: rest) = es ++ entriesOf seg.2 rest := rfl
    refine ⟨fun y hy => ?_, fun e he => ?_⟩
    · rcases List.mem_cons.mp hy with rfl | hy
      · exact hnext ▸ (Bytes.int16_range _ _).2
      · exact (ih hrest).1 y hy
    · rcases List.mem_append.mp (hsplit ▸ he) with he | he
      · exact hentries hes e he
      · exact (ih hrest).2 e he

/-- All zones of a tree but its own are 16-bit ids. -/
theorem Subtree.bounds (h : Subtree s id zs) : ∃ tail, zs = id :: tail ∧ ∀ z ∈ tail, 4 ≤ z ∧ z < 32768 := by
  induction h with
  | @file id kids state holds levels refs size =>
    refine ⟨_, rfl, fun z hz => ?_⟩
    obtain ⟨t, ht, hz⟩ := List.mem_flatMap.mp hz
    obtain ⟨i, hi⟩ := holds.exists_get (List.mem_map_of_mem ht)
    exact (refs t ht).bounds (hi ▸ (Bytes.int16_range _ _).2) z hz
  | @dir id es rest f state chain subs ih =>
    refine ⟨_, rfl, fun z hz => ?_⟩
    rcases List.mem_append.mp hz with hz | hz
    · exact ⟨Chain.le chain z hz, chain.lt.1 z hz⟩
    · obtain ⟨e, he, hz⟩ := List.mem_flatMap.mp hz
      obtain ⟨tail, heq, htail⟩ := ih e he
      rw [heq] at hz
      rcases List.mem_cons.mp hz with rfl | hz
      · exact ⟨(subs e he).le, chain.lt.2 e he⟩
      · exact htail z hz

/-- A tree without a zone twice has no more zones than there are 16-bit ids. -/
theorem Subtree.length_le (h : Subtree s id zs) (hnodup : zs.Nodup) : zs.length ≤ zoneFuel := by
  obtain ⟨tail, rfl, htail⟩ := h.bounds
  have htail' : tail.Nodup := (List.nodup_cons.mp hnodup).2
  have hsub : tail.toFinset ⊆ Finset.Ico 4 32768 := fun z hz => Finset.mem_Ico.mpr (htail z (List.mem_toFinset.mp hz))
  have hcard := Finset.card_le_card hsub
  rw [List.toFinset_card_of_nodup htail', Int.card_Ico] at hcard
  rw [List.length_cons]
  unfold zoneFuel
  omega

end

/-- `get_size` on the dentry of a directory returns the number of zones of its tree. -/
theorem get_size_exact {nb : Nat} {P : Policy} (s : Store nb) (d : Int) (zs : List Int) (h : Subtree s d zs)
    (hdir : s.state d = some dOccupied) (hnodup : zs.Nodup) :
    wp (storeSem P) (getSize (s.zones d)) (fun r s' => s' = s ∧ r = zs.length) s := by
  have hle := h.length_le hnodup
  rcases h.cases_state with ⟨hfile, -⟩ | ⟨es, rest, f, -, hchain, hsubs, rfl⟩
  · rw [hdir] at hfile
    exact absurd (Option.some.inj hfile) (by decide)
  · have hlen : (d :: rest.map Prod.fst ++ (entriesOf es rest).flatMap f).length =
        1 + rest.length + ((entriesOf es rest).flatMap f).length := by
      rw [List.length_append, List.length_cons, List.length_map]
      omega
    rw [hlen] at hle ⊢
    exact_mod_cast getSizeAt_exact hchain hsubs hle

/-- The size of a root directory with a dir_zone, a file of two data zones, a directory with a file, and three files
    without data. -/
theorem get_size_exact_chained :
    wp (storeSem .all) (getSize (chainedDisk.zones 4)) (fun r s' => s' = chainedDisk ∧ r = 10) chainedDisk := by
  have hchain : Chain chainedDisk.zones dentry 4 [(lit "a", 5), (lit "d", 8), (lit "b", 10), (lit "c", 11)]
      [(13, [(lit "e", 12)])] := by decide +kernel
  have hsub : Chain chainedDisk.zones dentry 8 [(lit "x", 9)] [] := by decide +kernel
  have hempty : ∀ id ∈ [(9 : Int), 10, 11, 12], Subtree chainedDisk id [id] := by
    have hfacts : ∀ id ∈ [(9 : Int), 10, 11, 12], chainedDisk.state id = some iOccupied ∧
        Holds (chainedDisk.zones id).ptr 24 [] ∧ (chainedDisk.zones id).size = 1 := by decide +kernel
    intro id hid
    obtain ⟨hstate, hholds, hsize⟩ := hfacts id hid
    exact @Subtree.file _ chainedDisk id [] hstate hholds rfl (fun _ h => absurd h List.not_mem_nil) hsize
  have hfile : Subtree chainedDisk 5 [5, 6, 7] :=
    @Subtree.file _ chainedDisk 5 [⟨0, (6, [])⟩, ⟨0, (7, [])⟩] (by decide +kernel) (by decide +kernel) rfl (by decide +kernel)
      (by decide +kernel)
  have hdir : Subtree chainedDisk 8 [8, 9] :=
    .dir (fun e => [e.2]) (by decide +kernel) hsub fun e he => List.mem_singleton.mp he ▸ hempty 9 (by decide)
  have htree : Subtree chainedDisk 4 [4, 13, 5, 6, 7, 8, 9, 10, 11, 12] := by
    refine .dir (fun e => if e.2 = 5 then [5, 6, 7] else if e.2 = 8 then [8, 9] else [e.2]) (by decide +kernel) hchain ?_
    refine List.forall_mem_cons.mpr ⟨hfile, List.forall_mem_cons.mpr ⟨hdir, ?_⟩⟩
    refine List.forall_mem_cons.mpr ⟨hempty 10 (by decide), List.forall_mem_cons.mpr ⟨hempty 11 (by decide), ?_⟩⟩
    exact List.forall_mem_singleton.mpr (hempty 12 (by decide))
  exact get_size_exact chainedDisk 4 [4, 13, 5, 6, 7, 8, 9, 10, 11, 12] htree (by decide +kernel) (by decide)

end MiniFs
