import MiniFs.Theorems.ByPath
import MiniFs.Theorems.CommandLoop
import MiniFs.Theorems.Files
import Mathlib.Algebra.BigOperators.Ring.List

/-! # The files of a store

The view of a store is the file system that it is for. Where the store keeps the invariant, paths lead to the same objects
in both, and the three changes of an image are those of the view. -/

namespace MiniFs
open Interact Memory

def Node.obj : Node → Obj
  | .dir es rest => .dir (entriesOf es rest)
  | .file kids => .file (content kids)

def Store.view (s : Store) : Files := fun id =>
  if s.state id = some dOccupied then some (.dir (s.listing id))
  else if s.state id = some iOccupied then some (.file (s.fileText id)) else none

section
variable {s s' : Store} {g g' : Image} {id d : Int} {n nd nd' : Node} {es : List Entry} {rest : List Seg} {kids : List Kid}

theorem Node.obj_ids : n.obj.ids = n.entries.map Prod.snd := by
  cases n <;> rfl

theorem Node.obj_dir (h : n.state = dOccupied) : n.obj = .dir n.entries := by
  obtain ⟨es, rest, rfl⟩ := Node.eq_dir h
  rfl

theorem Inv.view_eq (h : Inv s g) (id : Int) : s.view id = (g.node id).map Node.obj := by
  unfold Store.view
  by_cases hdir : s.state id = some dOccupied
  · obtain ⟨es, rest, hd⟩ := h.dir_of_state hdir
    rw [if_pos hdir, hd, h.listing_eq hd]
    rfl
  rw [if_neg hdir]
  by_cases hfile : s.state id = some iOccupied
  · obtain ⟨kids, hk⟩ := h.file_of_state hfile
    rw [if_pos hfile, hk, h.fileText_eq hk]
    rfl
  rw [if_neg hfile]
  cases hn : g.node id with
  | none => rfl
  | some n =>
    have hstate := h.state id n hn
    cases n with
    | dir es rest => exact absurd hstate hdir
    | file kids => exact absurd hstate hfile

theorem Inv.view_node (h : Inv s g) (hn : g.node id = some n) : s.view id = some n.obj := by
  rw [h.view_eq, hn]
  rfl

theorem Inv.node_of_view {o : Obj} (h : Inv s g) (ho : s.view id = some o) : ∃ n, g.node id = some n ∧ n.obj = o := by
  rw [h.view_eq] at ho
  exact Option.map_eq_some_iff.mp ho

theorem Inv.view_dir_iff (h : Inv s g) : (∃ es, s.view id = some (.dir es)) ↔ s.state id = some dOccupied := by
  constructor
  · rintro ⟨es, hes⟩
    obtain ⟨n, hn, ho⟩ := h.node_of_view hes
    cases n with
    | dir es rest => exact h.state _ _ hn
    | file kids => cases ho
  · exact fun hs => ⟨_, if_pos hs⟩

theorem Inv.view_file_iff (h : Inv s g) : (∃ text, s.view id = some (.file text)) ↔ s.state id = some iOccupied := by
  constructor
  · rintro ⟨text, ht⟩
    obtain ⟨n, hn, ho⟩ := h.node_of_view ht
    cases n with
    | dir es rest => cases ho
    | file kids => exact h.state _ _ hn
  · intro hs
    obtain ⟨kids, hk⟩ := h.file_of_state hs
    exact ⟨_, h.view_node hk⟩

theorem Inv.view_none_iff (h : Inv s g) : s.view id = none ↔ s.state id ≠ some iOccupied ∧ s.state id ≠ some dOccupied := by
  rw [ne_eq, ne_eq, ← h.view_file_iff, ← h.view_dir_iff]
  cases s.view id with
  | none => simp
  | some o => cases o <;> simp

theorem Formatted.view (h : Formatted s) : s.view = Files.start := by
  funext id
  rw [h.inv.view_eq]
  unfold Image.start Files.start
  dsimp only
  split <;> rfl

/-! ## Paths -/

theorem Chain.take_entriesOf (h : Chain s.zones dentry d es rest) : (entriesOf es rest).take 4 = es := by
  cases rest with
  | nil =>
    have hle : es.length ≤ 4 := h.1.le
    have hself : entriesOf es [] = es := List.append_nil es
    rw [hself, List.take_of_length_le hle]
  | cons seg rest =>
    have hlen : es.length = 4 := h.2.1
    have hsplit : entriesOf es (seg :: rest) = es ++ entriesOf seg.2 rest := rfl
    rw [hsplit, ← hlen, List.take_left]

theorem Inv.view_walk (h : Inv s g) {fuel : Nat} {curr : PathT} {path : Str} (hpath : NulFree path) :
    s.view.walk fuel curr path = s.walk fuel curr path := by
  have hdrop : ∀ {path : Str}, NulFree path → ∀ k, NulFree (path.drop k) := fun hp k c hc => hp c (List.mem_of_mem_drop hc)
  induction fuel generalizing curr path with
  | zero => rfl
  | succ fuel ih =>
    rw [Files.walk, Store.walk]
    split
    · rfl
    split
    · rfl
    split
    · rw [ih (hdrop hpath 2)]
    split
    · cases curr.prev with
      | none => rfl
      | some prev =>
        dsimp only
        rw [ih (hdrop hpath 3)]
    -- A name is looked up in the dentry, which shows the first four entries.
    cases hn : g.node curr.id with
    | none =>
      have hview : s.view curr.id = none := by rw [h.view_eq, hn]; rfl
      rw [hview, if_pos (h.view_none_iff.mp hview).2]
    | some n =>
      rw [h.view_node hn]
      cases n with
      | file kids =>
        have hs : s.state curr.id = some iOccupied := h.state _ _ hn
        rw [if_pos (hs ▸ fun heq => dOccupied_ne_iOccupied (Option.some.inj heq).symm)]
        rfl
      | dir es rest =>
        have hchain : Chain s.zones dentry curr.id es rest := h.rep _ _ hn
        have hs : s.state curr.id = some dOccupied := h.state _ _ hn
        rw [if_neg (not_not.mpr hs)]
        dsimp only [Node.obj]
        rw [hchain.take_entriesOf, lookupSub_eq hchain.entries fun c hc => hpath c (List.takeWhile_subset _ hc)]
        cases lookupEntries es (path.takeWhile (· ≠ slash)) with
        | none => rfl
        | some id =>
          dsimp only
          rw [ih (hdrop hpath _)]

theorem Inv.view_lookup (h : Inv s g) {pwd : PathT} {path : Str} (hpath : NulFree path) :
    s.view.lookup pwd path = s.lookup pwd path := by
  cases path with
  | nil => rfl
  | cons c rest =>
    unfold Files.lookup Store.lookup
    dsimp only
    rw [h.view_walk hpath, h.view_walk fun c hc => hpath c (List.mem_cons_of_mem _ hc)]

theorem Inv.view_insertion (h : Inv s g) {pwd : PathT} {path : Str} (hpath : NulFree path) :
    s.view.insertion pwd path = (s.insertion pwd path).map fun r => (r.1, s.listing r.1, r.2) := by
  have hcut : NulFree (s.lookup pwd path).2 := lookup_nulFree hpath
  unfold Files.insertion Store.insertion
  rw [h.view_lookup hpath]
  generalize s.lookup pwd path = r at hcut
  obtain ⟨r, cut⟩ := r
  cases r with
  | some p => rfl
  | none =>
    dsimp only at hcut ⊢
    cases hrm : rmName cut with
    | none => rfl
    | some nr =>
      obtain ⟨name, rest⟩ := nr
      dsimp only
      rw [h.view_lookup fun c hc => hcut c ((rmName_sub hrm).2.mem hc)]
      cases (s.lookup pwd rest).1 with
      | none => rfl
      | some p =>
        dsimp only
        by_cases hdir : s.state p.id = some dOccupied
        · rw [if_pos hdir, Store.view, if_pos hdir]
          rfl
        · rw [if_neg hdir]
          have hno : ∀ es, s.view p.id ≠ some (.dir es) := fun es hes => hdir (h.view_dir_iff.mp ⟨es, hes⟩)
          split
          · exact absurd ‹_› (hno _)
          · rfl

/-! ## Changes -/

theorem Inserted.view {name : Str} {new : List Int} (hins : Inserted s g d (name, id) n nd nd' new s' g') (h : Inv s g)
    (h' : Inv s' g') : s'.view = s.view.link d (s.listing d) (name, id) n.obj := by
  have hd' : g'.node d = some nd' := by rw [hins.node, if_pos rfl]
  obtain ⟨es, rest, rfl⟩ := Node.eq_dir hins.state_dir
  have hstate : nd'.state = dOccupied := by
    cases nd' with
    | dir es' rest' => rfl
    | file kids => exact absurd hins.entries.symm (by simp [Node.entries])
  funext i
  rw [h'.view_eq, hins.node, Files.link, Files.set, Files.set]
  split
  · rename_i hi
    rw [Option.map_some, Node.obj_dir hstate, hins.entries, h.listing_eq hins.dir]
    rfl
  split
  · rfl
  · rw [h.view_eq]

theorem Erased.view {e : Entry} {zs : List Int} (her : Erased s g d e nd nd' zs s' g') (h : Inv s g) (h' : Inv s' g')
    (hn : g.node id = some n) (hw : Within id n zs) (hall : ∀ e ∈ n.entries, e.2 ∈ zs) :
    s'.view = s.view.unlink d nd'.entries (id :: n.obj.ids) := by
  have hd' : g'.node d = some nd' := by rw [her.node, if_neg her.not_mem, if_pos rfl]
  have hstate : nd'.state = dOccupied := by
    have hs := h'.state _ _ hd'
    have hs₀ := h.state _ _ her.dir
    rw [her.state, if_neg her.not_mem, hs₀] at hs
    have hmem := her.entries.mem_iff.mpr List.mem_cons_self
    cases nd with
    | dir es rest => exact (Option.some.inj hs).symm
    | file kids => cases hmem
  have hids : ∀ i, i ∈ id :: n.obj.ids → i ∈ zs := by
    rw [Node.obj_ids]
    intro i hi
    rcases List.mem_cons.mp hi with rfl | hi
    · exact hw.self
    · obtain ⟨e, he, rfl⟩ := List.mem_map.mp hi
      exact hall e he
  funext i
  rw [h'.view_eq, her.node, Files.unlink]
  by_cases hi : i ∈ zs
  · rw [if_pos hi]
    split
    · rfl
    · rename_i hnot
      rw [Node.obj_ids] at hnot
      -- A zone of the node itself is no object.
      have hown : i ∈ n.own := by
        rcases hw.sub i hi with rfl | hown | ⟨e, he, rfl⟩
        · exact absurd List.mem_cons_self hnot
        · exact hown
        · exact absurd (List.mem_cons_of_mem _ (List.mem_map_of_mem he)) hnot
      have hid : i ≠ d := fun heq => her.not_mem (heq ▸ hi)
      rw [Files.set, if_neg hid, h.view_eq]
      cases hm : g.node i with
      | none => rfl
      | some m => exact absurd rfl (h.ne_own hm hn hown)
  · rw [if_neg hi, if_neg fun hin => hi (hids i hin), Files.set]
    split
    · rw [Option.map_some, Node.obj_dir hstate]
    · rw [h.view_eq]

theorem Extended.view {kids' : List Kid} {new : List Int} {str : Str} (hext : Extended s g id kids kids' new s' g')
    (h : Inv s g) (h' : Inv s' g') (htext : content kids' = content kids ++ str) :
    s'.view = s.view.set id (.file (content kids ++ str)) := by
  funext i
  rw [h'.view_eq, hext.node, Files.set]
  split
  · rw [← htext]
    rfl
  · rw [h.view_eq]

/-! ## Room in a file -/

theorem FileTree.Rep.length_text_le {zones : Int → Zone} {n : Nat} {t : FileTree n} (h : t.Rep zones) :
    t.text.length ≤ 63 * t.ids.length := by
  induction n with
  | zero =>
    have hlt := Bytes.HasStr.length_lt h.2
    show t.2.length ≤ 63 * 1
    omega
  | succ n ih =>
    obtain ⟨id, kids⟩ := t
    show (kids.flatMap text).length ≤ 63 * (id :: kids.flatMap ids).length
    rw [List.length_cons, List.length_flatMap, List.length_flatMap]
    have hsum : (kids.map fun t => t.text.length).sum ≤ (kids.map fun t => 63 * t.ids.length).sum :=
      List.sum_le_sum fun t ht => ih (h.2.2 t ht)
    rw [List.sum_map_mul_left] at hsum
    omega

/-- All of a line fits into a file: there are fewer zones on the disk than a file can have. -/
theorem Inv.room (h : Inv s g) (hk : g.node id = some (.file kids)) {str : Str} (hshort : str.length < 2 ^ 15) :
    str.take (min str.length (fileRoom kids)) = str := by
  have hrep : FileRep s id kids ∧ _ := h.rep _ _ hk
  have htotal := hrep.1.text_add_room
  have hown : (kids.flatMap (·.2.ids)).length ≤ 1024 := length_le_of_used (s := s) (h.nodup id _ hk) fun z hz =>
    ⟨by have := (h.placed _ _ hk).le_own z hz; omega, h.used_own hk z hz⟩
  have htext : (kids.flatMap (·.2.text)).length ≤ 63 * (kids.flatMap (·.2.ids)).length := by
    rw [List.length_flatMap, List.length_flatMap, ← List.sum_map_mul_left]
    exact List.sum_le_sum fun t ht => (hrep.1.rep t ht).length_text_le
  rw [Nat.min_eq_left (by omega), List.take_length]

end

end MiniFs
