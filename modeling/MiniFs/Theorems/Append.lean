import MiniFs.Theorems.FileTree

/-! # Appending to a file

`wrt_data` and `wrt_idx` at every level, `add_data` and `update_size`: appending grows the tree of a file by
exactly the zones that it needs, and touches no other zone. -/

namespace MiniFs
open Interact Memory FileTree

/-- `wrt_data`, and `wrt_idx` at each level. -/
def wrtLevel : Nat → Int → Str → FsM Int
  | 0 => wrtData
  | n + 1 => wrtIdxAt (wrtLevel n)

theorem wrtIdx_eq (id : Int) (str : Str) :
    wrtIdx id str false = wrtLevel 1 id str ∧ wrtIdx id str true = wrtLevel 2 id str := ⟨rfl, rfl⟩

/-- The tree `t` has taken the first `len` characters of `str` and the zones `new`. -/
structure Wrote {nb : Nat} (s : Store nb) {n : Nat} (t : FileTree n) (str : Str) (len : Nat) (s' : Store nb) (t' : FileTree n)
    (new : List Int) : Prop where
  id : t'.id = t.id
  rep : t'.Rep s'.zones
  packed : t'.Packed
  len_eq : len = min str.length t.room
  text : t'.text = t.text ++ str.take len
  full : len < str.length → t'.Full
  ids : t'.ids.Perm (t.ids ++ new)
  takes : s.Takes new s'
  frame : ∀ z, z ∉ t.lastPath → z ∉ new → s'.zones z = s.zones z
  count : new.length = t.need str.length

/-- What a function that appends to a tree of level `n` is given. -/
structure Writable {nb : Nat} (P : Policy) (s : Store nb) {n : Nat} (t : FileTree n) (str : Str) (k : Nat) : Prop where
  rep : t.Rep s.zones
  ready : t.Ready
  nodup : t.ids.Nodup
  used : ∀ z ∈ t.ids, s.Used z
  ne : str ≠ []
  nulFree : NulFree str
  short : str.length < 2 ^ 15
  room : s.Room P (t.need str.length + k)

/-- The function `w` appends to the trees of level `n`. -/
def Writes (nb : Nat) (P : Policy) (n : Nat) (w : Int → Str → FsM Int) : Prop :=
  ∀ (s : Store nb) (t : FileTree n) (str : Str) (k : Nat), Writable P s t str k →
    wp (storeSem P) (w t.id str)
      (fun r s' => ∃ (len : Nat) (t' : FileTree n) (new : List Int), r = len ∧ Wrote s t str len s' t' new ∧ s'.Room P k) s

section
variable {nb : Nat} {P : Policy} {n : Nat} {s s' : Store nb} {w : Int → Str → FsM Int}

/-! ## Data zones -/

theorem wrtData_spec : Writes nb P 0 wrtData := by
  rintro s ⟨id, text⟩ str k ⟨⟨hid, hstr⟩, -, -, -, -, hnul, -, hroom⟩
  replace hroom : s.Room P k := hroom.mono (Nat.le_add_left _ _)
  have hlen : text.length < 64 := Bytes.HasStr.length_lt hstr
  show wp (storeSem P) (wrtData id str) _ s
  unfold wrtData
  refine wp_bind.mpr (readZone_spec hid ?_)
  simp only [cstr?_eq hstr]
  refine wp_bind.mpr (wp_ret.mpr ?_)
  have hcat : ∀ u : Str, NulFree u → text.length + u.length + 1 ≤ 64 →
      ((s.zones id).blit text.length (u ++ [0])).HasStr 0 (text ++ u) := by
    intro u hu hfit
    have := hstr.strcat hu (by omega)
    rwa [Nat.zero_add] at this
  -- In both branches the zone takes as much of the string as it can.
  have hwrote : ∀ len, len = min str.length (63 - text.length) →
      Wrote (n := 0) s (id, text) str len (s.write id ((s.zones id).blit text.length (str.take len ++ [0])))
        (id, text ++ str.take len) [] := by
    intro len hl
    have hle : (str.take len).length = len := by rw [List.length_take]; omega
    refine ⟨rfl, ⟨hid, ?_⟩, trivial, hl, rfl, fun hlt => ?_, by simp [FileTree.ids], .nil fun _ => rfl, fun z hz _ => ?_, rfl⟩
    · rw [Store.zones_write_self]
      exact hcat _ (hnul.take len) (by omega)
    · show (text ++ str.take len).length = 63
      rw [List.length_append, hle]
      omega
    · exact Store.zones_write_of_ne _ fun h => hz (List.mem_singleton.mpr h)
  by_cases hfit : text.length + str.length + 1 ≤ zoneSize
  · rw [if_pos hfit]
    have hw := hwrote str.length (by unfold zoneSize at hfit; omega)
    rw [List.take_length] at hw
    exact wp_bind.mpr (writeZone_spec hid (wp_ret.mpr ⟨str.length, _, [], rfl, hw, hroom⟩))
  · rw [if_neg hfit]
    have hw := hwrote (zoneSize - 1 - text.length) (by unfold zoneSize at *; omega)
    exact wp_bind.mpr (writeZone_spec hid (wp_ret.mpr ⟨_, _, [], rfl, hw, hroom⟩))

/-! ## A new zone -/

/-- Zone `id` was free; it is now marked as data and cleared. -/
structure Fresh {nb : Nat} (s : Store nb) (id : Int) (s' : Store nb) : Prop where
  le : 4 ≤ id
  lt : id < 2 ^ 15
  takes : s.Takes [id] s'
  zone : s'.zones id = .zero
  frame : ∀ z, z ≠ id → s'.zones z = s.zones z

theorem Fresh.fits {id : Int} (h : Fresh s id s') : Zone.Fits id := by
  have hle := h.le
  have hlt := h.lt
  exact ⟨by omega, by omega⟩

theorem Fresh.ne_zero {id : Int} (h : Fresh s id s') : id ≠ 0 := by
  have hle := h.le
  omega

theorem Store.SetState.fresh [hn : Sized nb] {id : Int} (h : s.SetState id fOccupied s') (h4 : 4 ≤ id) (hlt : id < 4 * nb)
    (hs : s.state id = some unoccupied) : Fresh s id (s'.write id .zero) where
  le := h4
  lt := by
    have := hn.lt
    omega
  takes :=
    have htakes := h.takes h4 hs
    ⟨htakes.nodup, htakes.free, htakes.state⟩
  zone := Store.zones_write_self _ _ _
  frame := fun z hz => by rw [Store.zones_write_of_ne _ hz, h.zones]

theorem fresh_spec [Sized nb] {α : Type} {k : Nat} {Q : α → Store nb → Prop} {f g : Int → FsM α}
    (hroom : s.Room P (k + 1)) (h : ∀ id s', Fresh s id s' → s'.Room P k → wp (storeSem P) (f id) Q s') :
    wp (storeSem P)
      (do
        let id ← Fs.getFreeId fOccupied
        if id ≥ 0 then
          Fs.writeZone id .zero
          f id
        else g id) Q s := by
  refine wp_bind.mpr (getFreeId_spec isState_fOccupied (by decide) hroom fun id s' h4 hlt hs hset hroom' => ?_)
  rw [if_pos (by omega)]
  exact wp_bind.mpr (writeZone_spec h4 (h id _ (hset.fresh h4 hlt hs) hroom'))

theorem firstZone_spec [Sized nb] {k : Nat} {empty : Bool} {str : Str} {Q : Option Int → Store nb → Prop} (he : empty = true)
    (hne : str ≠ []) (hroom : s.Room P (k + 1)) (h : ∀ id s', Fresh s id s' → s'.Room P k → Q (some id) s') :
    wp (storeSem P) (firstZone empty str) Q s := by
  unfold firstZone
  rw [if_pos ⟨he, hne⟩]
  exact fresh_spec (g := fun _ => .ret none) hroom fun id s' hf hroom' => wp_ret.mpr (h id s' hf hroom')

theorem strAt_eq {str : Str} {len : Nat} (h : len ≤ str.length) : strAt str len = some (str.drop len) := by
  unfold strAt
  rw [if_pos (by omega), Int.toNat_natCast]

theorem flatMap_concat {α β : Type} (f : α → List β) (l : List α) (a : α) : (l ++ [a]).flatMap f = l.flatMap f ++ f a := by
  simp

theorem length_flatMap_const {α β : Type} {f : α → List β} {c : Nat} {l : List α} (h : ∀ a ∈ l, (f a).length = c) :
    (l.flatMap f).length = l.length * c := by
  induction l with
  | nil => simp
  | cons a l ih =>
    rw [List.flatMap_cons, List.length_append, h a List.mem_cons_self, ih fun b hb => h b (List.mem_cons_of_mem _ hb),
      List.length_cons, Nat.succ_mul, Nat.add_comm]

/-! ## Growing rows of trees

The entries of an index zone and the pointers of an inode are rows of trees, where entry `i` has level `lvl i`.
A row takes a string by its last tree and then by new trees after it. -/

/-- A row `init ++ [last]` that is to take `str`, with `m` entries after it. -/
structure Growing {nb : Nat} (P : Policy) (s : Store nb) (lvl : Nat → Nat) (init : List Kid) (last : Kid) (m : Nat)
    (str : Str) (k : Nat) : Prop where
  levels : (init ++ [last]).map Sigma.fst = (List.range (init.length + 1)).map lvl
  rep : ∀ t ∈ init ++ [last], t.2.Rep s.zones
  full : ∀ t ∈ init, t.2.Full
  ready : last.2.Ready
  nodup : ((init ++ [last]).flatMap (·.2.ids)).Nodup
  used : ∀ z ∈ (init ++ [last]).flatMap (·.2.ids), s.Used z
  ne : str ≠ []
  nulFree : NulFree str
  short : str.length < 2 ^ 15
  room : s.Room P (last.2.need str.length + needFrom lvl m (init.length + 1) (str.length - last.2.room) + k)

/-- The row has become `kids'`: it has taken the first `len` characters of `str` and the zones `new`. The zones
    `own` hold the row. -/
structure Grown {nb : Nat} (own : List Int) (s : Store nb) (lvl : Nat → Nat) (init : List Kid) (last : Kid) (m : Nat)
    (str : Str) (len : Nat) (s' : Store nb) (kids' : List Kid) (new : List Int) : Prop where
  levels : kids'.map Sigma.fst = (List.range kids'.length).map lvl
  rep : ∀ t ∈ kids', t.2.Rep s'.zones
  packed : ∃ init' last', kids' = init' ++ [last'] ∧ (∀ t ∈ init', t.2.Full) ∧ last'.2.Packed
  len_eq : len = min str.length (last.2.room + capFrom lvl m (init.length + 1))
  text : kids'.flatMap (·.2.text) = (init ++ [last]).flatMap (·.2.text) ++ str.take len
  full : len < str.length → kids'.length = init.length + 1 + m ∧ ∀ t ∈ kids', t.2.Full
  ids : (kids'.flatMap (·.2.ids)).Perm ((init ++ [last]).flatMap (·.2.ids) ++ new)
  takes : s.Takes new s'
  frame : ∀ z, z ∉ own → z ∉ last.2.lastPath → z ∉ new → s'.zones z = s.zones z
  count : new.length = last.2.need str.length + needFrom lvl m (init.length + 1) (str.length - last.2.room)

section
variable {lvl : Nat → Nat} {own : List Int} {init : List Kid} {last : Kid} {last' : FileTree last.1} {m k len : Nat}
  {str : Str} {new : List Int}

theorem mem_ids_row {row : List Kid} {z : Int} {t : Kid} (ht : t ∈ row) (hz : z ∈ t.2.ids) :
    z ∈ row.flatMap (·.2.ids) := List.mem_flatMap.mpr ⟨t, ht, hz⟩

theorem levels_split (h : (init ++ [last]).map Sigma.fst = (List.range (init.length + 1)).map lvl) :
    init.map Sigma.fst = (List.range init.length).map lvl ∧ last.1 = lvl init.length := by
  rw [List.range_succ, List.map_append, List.map_append] at h
  exact ⟨List.append_inj_left' h (by simp), by simpa using List.append_inj_right' h (by simp)⟩

theorem Growing.level (h : Growing P s lvl init last m str k) : last.1 = lvl init.length := (levels_split h.levels).2

theorem Growing.writable (h : Growing P s lvl init last m str k) :
    Writable P s last.2 str (needFrom lvl m (init.length + 1) (str.length - last.2.room) + k) where
  rep := h.rep last (by simp)
  ready := h.ready
  nodup := by
    have := h.nodup
    rw [flatMap_concat] at this
    exact (List.nodup_append.mp this).2.1
  used := fun z hz => h.used z (mem_ids_row (by simp) hz)
  ne := h.ne
  nulFree := h.nulFree
  short := h.short
  room := by
    have := h.room
    rwa [Nat.add_assoc] at this

/-- A write to the last tree leaves the zones of the others alone. -/
theorem Growing.untouched (h : Growing P s lvl init last m str k) (hw : Wrote s last.2 str len s' last' new) :
    ∀ t ∈ init, ∀ z ∈ t.2.ids, s'.zones z = s.zones z := by
  intro t ht z hz
  have hnodup := h.nodup
  rw [flatMap_concat] at hnodup
  refine hw.frame z (fun hl => ?_) (hw.takes.not_mem (h.used z (mem_ids_row (List.mem_append_left _ ht) hz)))
  exact (List.nodup_append.mp hnodup).2.2 z (mem_ids_row ht hz) z (lastPath_subset z hl) rfl

theorem Growing.rep_after (h : Growing P s lvl init last m str k) (hw : Wrote s last.2 str len s' last' new) :
    ∀ t ∈ init ++ [(⟨_, last'⟩ : Kid)], t.2.Rep s'.zones := by
  intro t ht
  rcases List.mem_append.mp ht with ht | ht
  · exact (h.rep t (List.mem_append_left _ ht)).congr (h.untouched hw t ht)
  · rw [List.mem_singleton.mp ht]
    exact hw.rep

theorem Wrote.ids_row (hw : Wrote s last.2 str len s' last' new) :
    ((init ++ [(⟨_, last'⟩ : Kid)]).flatMap (·.2.ids)).Perm ((init ++ [last]).flatMap (·.2.ids) ++ new) := by
  rw [flatMap_concat, flatMap_concat, List.append_assoc]
  exact hw.ids.append_left _

theorem levels_concat (h : (init ++ [last]).map Sigma.fst = (List.range (init.length + 1)).map lvl) (t : FileTree last.1) :
    (init ++ [(⟨_, t⟩ : Kid)]).map Sigma.fst = (List.range (init.length + 1)).map lvl := by
  rw [← h]
  simp

/-- The last round: what the last tree took is all. -/
theorem Growing.finish (h : Growing P s lvl init last m str k) (hw : Wrote s last.2 str len s' last' new)
    (hend : m = 0 ∨ len = str.length) : Grown [] s lvl init last m str len s' (init ++ [(⟨_, last'⟩ : Kid)]) new := by
  have hlen := hw.len_eq
  have hrest : m = 0 ∨ str.length - last.2.room = 0 := hend.imp_right fun hl => by omega
  refine ⟨?_, h.rep_after hw, ⟨init, _, rfl, h.full, hw.packed⟩, ?_, ?_, fun hlt => ?_, hw.ids_row, hw.takes,
    fun z _ hlast hnew => hw.frame z hlast hnew, ?_⟩
  · rw [List.length_append, List.length_singleton]
    exact levels_concat h.levels last'
  · rcases hend with rfl | hl
    · exact hlen
    · omega
  · rw [flatMap_concat, flatMap_concat, hw.text, List.append_assoc]
  · have hm : m = 0 := by omega
    refine ⟨by rw [List.length_append, List.length_singleton, hm], fun t ht => ?_⟩
    rcases List.mem_append.mp ht with ht | ht
    · exact h.full t ht
    · rw [List.mem_singleton.mp ht]
      exact hw.full hlt
  · rw [hw.count]
    rcases hrest with rfl | hz
    · rfl
    · rw [hz, needFrom_zero, Nat.add_zero]

/-- Another round: the last tree is full and a new one follows it. -/
theorem Growing.grow {nId : Int} {s'' : Store nb} (h : Growing P s lvl init last (m + 1) str k)
    (hw : Wrote s last.2 str len s' last' new) (hlt : len < str.length) (hf : Fresh s' nId s'')
    (hroom : s''.Room P (needBelow (lvl (init.length + 1)) (str.length - len) +
      needFrom lvl m (init.length + 2) (str.length - len - cap (lvl (init.length + 1))) + k)) :
    Growing P s'' lvl (init ++ [(⟨_, last'⟩ : Kid)]) ⟨_, FileTree.new (lvl (init.length + 1)) nId⟩ m (str.drop len) k := by
  have hstate : ∀ z ∈ (init ++ [(⟨_, last'⟩ : Kid)]).flatMap (·.2.ids), s'.Used z := fun z hz =>
    hw.takes.used_append h.used z (hw.ids_row.mem_iff.mp hz)
  have hlen : (init ++ [(⟨_, last'⟩ : Kid)]).length = init.length + 1 := by
    rw [List.length_append, List.length_singleton]
  refine ⟨?_, fun t ht => ?_, fun t ht => ?_, ready_new _, ?_, ?_, ?_, h.nulFree.drop _, ?_, ?_⟩
  · rw [List.map_append, levels_concat h.levels, hlen, List.range_succ (n := init.length + 1), List.map_append]
    rfl
  · rcases List.mem_append.mp ht with ht | ht
    · refine (h.rep_after hw t ht).congr fun z hz => hf.frame z fun heq => ?_
      exact hf.takes.not_mem (hstate z (mem_ids_row ht hz)) (List.mem_singleton.mpr heq)
    · rw [List.mem_singleton.mp ht]
      exact rep_new hf.le hf.zone
  · rcases List.mem_append.mp ht with ht | ht
    · exact h.full t ht
    · rw [List.mem_singleton.mp ht]
      exact hw.full hlt
  · rw [flatMap_concat, ids_new]
    exact hf.takes.nodup_append (hw.ids_row.nodup_iff.mpr (hw.takes.nodup_append h.nodup h.used)) hstate
  · rw [flatMap_concat, ids_new]
    exact hf.takes.used_append hstate
  · exact fun hnil => by rw [List.drop_eq_nil_iff] at hnil; omega
  · have := h.short
    rw [List.length_drop]
    omega
  · rw [need_new, room_new, List.length_drop, hlen]
    exact hroom

/-- What the later rounds write comes after what the first one wrote. -/
theorem Grown.grow {nId : Int} {s'' s₃ : Store nb} {len₂ : Nat} {kids' : List Kid} {new₂ : List Int}
    (hw : Wrote s last.2 str len s' last' new) (hlt : len < str.length) (hf : Fresh s' nId s'')
    (h : Grown own s'' lvl (init ++ [(⟨_, last'⟩ : Kid)]) ⟨_, FileTree.new (lvl (init.length + 1)) nId⟩ m
      (str.drop len) len₂ s₃ kids' new₂) :
    Grown own s lvl init last (m + 1) str (len + len₂) s₃ kids' (new ++ nId :: new₂) := by
  have hlen := hw.len_eq
  have hrest : str.length - last.2.room = str.length - len := by omega
  have hlen₂ := h.len_eq
  have hcount := h.count
  rw [room_new, List.length_drop, List.length_append, List.length_singleton] at hlen₂ hcount
  rw [need_new] at hcount
  dsimp only at hlen₂ hcount
  have hcons : new ++ [nId] ++ new₂ = new ++ nId :: new₂ := by rw [List.append_assoc, List.singleton_append]
  refine ⟨h.levels, h.rep, h.packed, ?_, ?_, fun hlt' => ?_, ?_, hcons ▸ (hw.takes.trans hf.takes).trans h.takes,
    fun z hown hlast hnew => ?_, ?_⟩
  · rw [capFrom]
    omega
  · rw [h.text, flatMap_concat, text_new, List.append_nil, flatMap_concat, flatMap_concat, hw.text, List.take_add]
    simp only [List.append_assoc]
  · obtain ⟨hcount, hfull⟩ := h.full (by rw [List.length_drop]; omega)
    rw [List.length_append, List.length_singleton] at hcount
    exact ⟨by omega, hfull⟩
  · have hperm := h.ids
    rw [flatMap_concat, ids_new, List.append_assoc] at hperm
    refine hperm.trans ((hw.ids_row.append_right _).trans ?_)
    rw [List.append_assoc, List.singleton_append]
  · have hmem : z ∉ new ∧ z ≠ nId ∧ z ∉ new₂ := by simpa using hnew
    rw [h.frame z hown (by rw [lastPath_new]; simpa using hmem.2.1) hmem.2.2, hf.frame z hmem.2.1,
      hw.frame z hlast hmem.1]
  · rw [List.length_append, List.length_cons, hcount, hw.count, hrest, needFrom_succ (by omega)]
    omega

/-- The zone that holds the row is none of its zones, and is written last. -/
theorem Grown.write {id : Int} {kids' : List Kid} (h : Grown [] s lvl init last m str len s' kids' new)
    (hid : s.Used id) (hrow : id ∉ (init ++ [last]).flatMap (·.2.ids)) (zone : Zone) :
    Grown [id] s lvl init last m str len (s'.write id zone) kids' new := by
  refine ⟨h.levels, fun t ht => (h.rep t ht).congr fun z hz => Store.zones_write_of_ne _ ?_, h.packed, h.len_eq, h.text,
    h.full, h.ids, ⟨h.takes.nodup, h.takes.free, h.takes.state⟩, fun z hown hlast hnew => ?_, h.count⟩
  · rintro rfl
    rcases List.mem_append.mp (h.ids.mem_iff.mp (mem_ids_row ht hz)) with hz | hz
    · exact hrow hz
    · exact h.takes.not_mem hid hz
  · rw [Store.zones_write_of_ne _ (by simpa using hown)]
    exact h.frame z List.not_mem_nil hlast hnew

end

/-! ## Index zones -/

/-- What the loop of `wrt_idx` keeps of the index zone: `zone` is the copy that it works on. -/
structure IdxZone {nb : Nat} (s : Store nb) (id : Int) (zone : Zone) (row : List Kid) (m : Nat) : Prop where
  le : 4 ≤ id
  used : s.Used id
  not_mem : id ∉ row.flatMap (·.2.ids)
  holds : Holds zone.idx 32 (row.map (·.2.id))
  slots : row.length + m = 32

section
variable {n : Nat} {w : Int → Str → FsM Int} {id : Int} {zone : Zone} {init : List Kid} {last : Kid} {m k : Nat} {str : Str}

theorem toShort_eq {v : Int} (h : 0 ≤ v) (h' : v < 2 ^ 15) : toShort v = v := Int.bmod_eq_of_le (by omega) (by omega)

/-- What the loop of `wrt_idx` does after a round on entry `idx`, with `n` entries left. -/
def wrtIdxNext (w : Int → Str → FsM Int) (id : Int) (str : Str) (n idx : Nat) (zone : Zone) (len : Int) (rest : Str) :
    FsM Int :=
  match n with
  | n + 1 =>
    if rest ≠ [] then do
      let nId ← Fs.getFreeId fOccupied
      if nId ≥ 0 then
        Fs.writeZone nId .zero
        wrtIdxLoop w id str n (idx + 1) len (zone.setIdx (idx + 1) nId)
      else .ret len
    else do
      Fs.writeZone id zone
      .ret len
  | 0 => do
    Fs.writeZone id zone
    .ret len

theorem wrtIdxLoop_eq {idx : Nat} {len : Int} : wrtIdxLoop w id str m idx len zone = (do
    let len := toShort (len + (← w (zone.idx idx) (← orFault (strAt str len))))
    let rest ← orFault (strAt str len)
    wrtIdxNext w id str m idx zone len rest) := by
  cases m with
  | zero => rfl
  | succ m => rfl

/-- The index zone is written after the last entry, and at the end of the string. -/
theorem wrtIdxNext_end {idx : Nat} {len : Int} {rest : Str} (h : m = 0 ∨ rest = []) :
    wrtIdxNext w id str m idx zone len rest = (do Fs.writeZone id zone; .ret len) := by
  cases m with
  | zero => rfl
  | succ m => exact if_neg (not_not.mpr (h.resolve_left (Nat.succ_ne_zero m)))

theorem wrtIdxNext_succ {idx : Nat} {len : Int} {rest : Str} (h : rest ≠ []) :
    wrtIdxNext w id str (m + 1) idx zone len rest = (do
      let nId ← Fs.getFreeId fOccupied
      if nId ≥ 0 then
        Fs.writeZone nId .zero
        wrtIdxLoop w id str m (idx + 1) len (zone.setIdx (idx + 1) nId)
      else .ret len) := if_pos h

/-- A round of the loop writes what comes after `pre`. -/
theorem wp_round {σ : Type} {X : Sem fsSig σ} {t : σ} {idx : Nat} {Q : Int → σ → Prop} (pre : Str)
    (hshort : pre.length + str.length < 2 ^ 15)
    (h : wp X (w (zone.idx idx) str) (fun r t' => ∃ len : Nat, r = len ∧ len ≤ str.length ∧
      wp X (wrtIdxNext w id (pre ++ str) m idx zone (pre.length + len : Nat) (str.drop len)) Q t') t) :
    wp X (wrtIdxLoop w id (pre ++ str) m idx pre.length zone) Q t := by
  rw [wrtIdxLoop_eq, strAt_eq (by simp), List.drop_left]
  refine wp_bind.mpr (wp_ret.mpr (wp_bind.mpr (wp_mono h ?_)))
  rintro r t' ⟨len, rfl, hle, hrest⟩
  have hat : strAt (pre ++ str) (pre.length + len : Int) = some (str.drop len) := by
    rw [← Int.natCast_add, strAt_eq (by rw [List.length_append]; omega), ← List.drop_drop, List.drop_left]
  show wp X (orFault (strAt (pre ++ str) (toShort (pre.length + len : Int))) >>=
    wrtIdxNext w id (pre ++ str) m idx zone (toShort (pre.length + len : Int))) Q t'
  rw [toShort_eq (by omega) (by omega), hat]
  exact wp_bind.mpr (wp_ret.mpr hrest)

theorem Growing.round {Q : Int → Store nb → Prop} (pre : Str) (hw : Writes nb P last.1 w)
    (hid : zone.idx init.length = last.2.id) (h : Growing P s (fun _ => n) init last m str k)
    (hshort : pre.length + str.length < 2 ^ 15)
    (hnext : ∀ (len : Nat) (last' : FileTree last.1) (new : List Int) (s' : Store nb), len ≤ str.length →
      Wrote s last.2 str len s' last' new →
      s'.Room P (needFrom (fun _ => n) m (init.length + 1) (str.length - last.2.room) + k) →
        wp (storeSem P) (wrtIdxNext w id (pre ++ str) m init.length zone (pre.length + len : Nat) (str.drop len)) Q s') :
    wp (storeSem P) (wrtIdxLoop w id (pre ++ str) m init.length pre.length zone) Q s := by
  refine wp_round pre hshort ?_
  rw [hid]
  refine wp_mono (hw s last.2 str _ h.writable) ?_
  rintro r s' ⟨len, last', new, rfl, hwrote, hroom⟩
  have hle : len ≤ str.length := by have := hwrote.len_eq; omega
  exact ⟨len, rfl, hle, hnext len last' new s' hle hwrote hroom⟩

/-- The entry for a new tree. -/
theorem IdxZone.grow {last' : FileTree last.1} {len : Nat} {new : List Int} {nId : Int} {s'' : Store nb}
    (h : IdxZone s id zone (init ++ [last]) (m + 1)) (hw : Wrote s last.2 str len s' last' new) (hf : Fresh s' nId s'') :
    IdxZone s'' id (zone.setIdx (init.length + 1) nId) (init ++ [⟨_, last'⟩] ++ [⟨n, FileTree.new n nId⟩]) m := by
  have hstate := hw.takes.used h.used
  have hslots := h.slots
  rw [List.length_append, List.length_singleton] at hslots
  refine ⟨h.le, hf.takes.used hstate, fun hmem => ?_, ?_, by simp; omega⟩
  · rw [flatMap_concat, ids_new] at hmem
    rcases List.mem_append.mp hmem with hmem | hmem
    · rcases List.mem_append.mp (hw.ids_row.mem_iff.mp hmem) with hmem | hmem
      · exact h.not_mem hmem
      · exact hw.takes.not_mem h.used hmem
    · exact hf.takes.not_mem hstate hmem
  · have hlen : ((init ++ [last]).map (·.2.id)).length = init.length + 1 := by simp
    have hmap : (init ++ [(⟨_, last'⟩ : Kid)]).map (·.2.id) = (init ++ [last]).map (·.2.id) := by simp [hw.id]
    rw [List.map_append, List.map_singleton, id_new, hmap]
    refine h.holds.concat (by omega) hf.ne_zero ?_ fun i _ hi => ?_
    · rw [hlen]
      exact Zone.idx_setIdx_self (by omega) hf.fits
    · rw [hlen] at hi
      exact Zone.idx_setIdx_of_ne hi

/-- The index zone is written with the entries that the loop has made. -/
theorem IdxZone.finish {last' : FileTree last.1} {len : Nat} {new : List Int} (hz : IdxZone s id zone (init ++ [last]) m)
    (h : Growing P s (fun _ => n) init last m str k) (hw : Wrote s last.2 str len s' last' new)
    (hend : m = 0 ∨ len = str.length) :
    Holds ((s'.write id zone).zones id).idx 32 ((init ++ [(⟨_, last'⟩ : Kid)]).map (·.2.id)) ∧
      Grown [id] s (fun _ => n) init last m str len (s'.write id zone) (init ++ [⟨_, last'⟩]) new := by
  refine ⟨?_, (h.finish hw hend).write hz.used hz.not_mem zone⟩
  have hmap : (init ++ [(⟨_, last'⟩ : Kid)]).map (·.2.id) = (init ++ [last]).map (·.2.id) := by simp [hw.id]
  rw [Store.zones_write_self, hmap]
  exact hz.holds

/-- The loop of `wrt_idx`, by induction on the entries that are left. -/
theorem wrtIdxLoop_spec [Sized nb] (hw : Writes nb P n w) (pre : Str) (hz : IdxZone s id zone (init ++ [last]) m)
    (h : Growing P s (fun _ => n) init last m str k) (hshort : pre.length + str.length < 2 ^ 15) :
    wp (storeSem P) (wrtIdxLoop w id (pre ++ str) m init.length pre.length zone)
      (fun r s' => ∃ (len : Nat) (kids' : List Kid) (new : List Int), r = (pre.length + len : Nat) ∧
        Holds (s'.zones id).idx 32 (kids'.map (·.2.id)) ∧
        Grown [id] s (fun _ => n) init last m str len s' kids' new ∧ s'.Room P k) s := by
  induction m generalizing s zone init last str pre with
  | zero =>
    have hw' : Writes nb P last.1 w := h.level ▸ hw
    have hid : zone.idx init.length = last.2.id := by simpa using hz.holds.used init.length (by simp)
    refine h.round pre hw' hid hshort fun len last' new s' hle hwrote hroom => ?_
    rw [wrtIdxNext_end (Or.inl rfl)]
    obtain ⟨hholds, hgrown⟩ := hz.finish h hwrote (Or.inl rfl)
    refine wp_bind.mpr (writeZone_spec hz.le (wp_ret.mpr ?_))
    exact ⟨len, _, new, rfl, hholds, hgrown, hroom.mono (Nat.le_add_left _ _)⟩
  | succ m ih =>
    have hw' : Writes nb P last.1 w := h.level ▸ hw
    have hid : zone.idx init.length = last.2.id := by simpa using hz.holds.used init.length (by simp)
    refine h.round pre hw' hid hshort fun len last' new s' hle hwrote hroom => ?_
    by_cases hrest : str.drop len = []
    · rw [wrtIdxNext_end (Or.inr hrest)]
      have hlen : len = str.length := by rw [List.drop_eq_nil_iff] at hrest; omega
      obtain ⟨hholds, hgrown⟩ := hz.finish h hwrote (Or.inr hlen)
      refine wp_bind.mpr (writeZone_spec hz.le (wp_ret.mpr ?_))
      exact ⟨len, _, new, rfl, hholds, hgrown, hroom.mono (Nat.le_add_left _ _)⟩
    · rw [wrtIdxNext_succ hrest]
      have hlt : len < str.length := by rw [List.drop_eq_nil_iff] at hrest; omega
      have heq : str.length - last.2.room = str.length - len := by have := hwrote.len_eq; omega
      rw [heq, needFrom_succ (by omega)] at hroom
      have hroom' : s'.Room P (needBelow n (str.length - len) +
          needFrom (fun _ => n) m (init.length + 1 + 1) (str.length - len - cap n) + k + 1) := hroom.mono (by omega)
      refine fresh_spec hroom' fun nId s'' hf hroom'' => ?_
      have hpre : (pre ++ str.take len).length = pre.length + len := by
        rw [List.length_append, List.length_take]
        omega
      have hih := ih (pre ++ str.take len) (hz.grow hwrote hf) (h.grow hwrote hlt hf hroom'')
        (by rw [hpre, List.length_drop]; omega)
      rw [List.append_assoc, List.take_append_drop, hpre, List.length_append, List.length_singleton] at hih
      refine wp_mono hih ?_
      rintro r s₃ ⟨len₂, kids', new₂, rfl, hholds, hgrown, hroom₃⟩
      exact ⟨len + len₂, kids', _, by rw [Nat.add_assoc], hholds, Grown.grow hwrote hlt hf hgrown, hroom₃⟩

end

section
variable {n : Nat} {w : Int → Str → FsM Int} {id : Int} {init : List (FileTree n)} {last : FileTree n} {k len : Nat}
  {str : Str}

theorem exists_trees {kids : List Kid} (h : kids.map Sigma.fst = (List.range kids.length).map fun _ => n) :
    ∃ trees : List (FileTree n), kids = trees.map (Sigma.mk n) := by
  induction kids with
  | nil => exact ⟨[], rfl⟩
  | cons t kids ih =>
    obtain ⟨l, t⟩ := t
    rw [List.length_cons, List.range_succ_eq_map, List.map_cons, List.map_cons, List.map_map, List.cons.injEq] at h
    obtain ⟨rfl, h⟩ := h
    obtain ⟨trees, rfl⟩ := ih h
    exact ⟨t :: trees, rfl⟩

theorem levels_trees (trees : List (FileTree n)) :
    (trees.map (Sigma.mk n)).map Sigma.fst = (List.range trees.length).map fun _ => n := by
  rw [List.map_map]
  induction trees with
  | nil => rfl
  | cons t trees ih =>
    rw [List.map_cons, ih, List.length_cons, List.range_succ_eq_map, List.map_cons, List.map_map]
    rfl

/-- An index zone with entries, at the start of the loop. -/
theorem Writable.kids (h : Writable (n := n + 1) P s (id, init ++ [last]) str k) :
    IdxZone s id (s.zones id) (init.map (Sigma.mk n) ++ [⟨n, last⟩]) (31 - init.length) ∧
      Growing P s (fun _ => n) (init.map (Sigma.mk n)) ⟨n, last⟩ (31 - init.length) str k := by
  obtain ⟨⟨hid, hholds, hrep⟩, ⟨hfull, hready⟩, hnodup, hstate, hne, hnul, hshort, hroom⟩ := h
  have hrow : init.map (Sigma.mk n) ++ [⟨n, last⟩] = (init ++ [last]).map (Sigma.mk n) := by simp
  have hlen : init.length + 1 ≤ 32 := by simpa using hholds.le
  have hids : ((init ++ [last]).map (Sigma.mk n)).flatMap (·.2.ids) = (init ++ [last]).flatMap FileTree.ids :=
    List.flatMap_map ..
  have hnodup' : (id :: (init ++ [last]).flatMap FileTree.ids).Nodup := hnodup
  refine ⟨⟨hid, hstate id List.mem_cons_self, ?_, ?_, ?_⟩, ⟨?_, ?_, ?_, hready last (by simp), ?_, ?_, hne, hnul, hshort, ?_⟩⟩
  · rw [hrow, hids]
    exact (List.nodup_cons.mp hnodup').1
  · rw [hrow, List.map_map]
    exact hholds
  · simp
    omega
  · rw [hrow, levels_trees]
    simp
  · rw [hrow]
    intro t ht
    obtain ⟨t', ht', rfl⟩ := List.mem_map.mp ht
    exact hrep t' ht'
  · intro t ht
    obtain ⟨t', ht', rfl⟩ := List.mem_map.mp ht
    exact hfull t' (by rwa [List.dropLast_concat])
  · rw [hrow, hids]
    exact (List.nodup_cons.mp hnodup').2
  · rw [hrow, hids]
    exact fun z hz => hstate z (List.mem_cons_of_mem _ hz)
  · rwa [need_concat, ← needFrom_const _ ((init.map (Sigma.mk n)).length + 1)] at hroom

/-- An empty index zone, at the start of the loop with a first tree. -/
theorem Writable.first {nId : Int} (h : Writable (n := n + 1) P s (id, []) str k) (hf : Fresh s nId s')
    (hroom : s'.Room P (needBelow n str.length + needNew n (needBelow n) 31 (str.length - cap n) + k)) :
    IdxZone s' id ((s.zones id).setIdx 0 nId) ([] ++ [⟨n, FileTree.new n nId⟩]) 31 ∧
      Growing P s' (fun _ => n) [] ⟨n, FileTree.new n nId⟩ 31 str k := by
  obtain ⟨⟨hid, hholds, -⟩, -, -, hstate, hne, hnul, hshort, -⟩ := h
  have hst : s.Used id := hstate id List.mem_cons_self
  have hids : (([] ++ [⟨n, FileTree.new n nId⟩] : List Kid).flatMap fun t => t.2.ids) = [nId] := by simp
  refine ⟨⟨hid, hf.takes.used hst, ?_, ?_, rfl⟩, ⟨rfl, fun t ht => ?_, nofun, ready_new _, ?_, ?_, hne, hnul, hshort, ?_⟩⟩
  · rw [hids]
    exact hf.takes.not_mem hst
  · rw [List.nil_append, List.map_singleton, id_new]
    have hempty : Holds (s.zones id).idx 32 [] := hholds
    refine hempty.concat (by simp) hf.ne_zero ?_ fun i _ hi => Zone.idx_setIdx_of_ne hi
    exact Zone.idx_setIdx_self (by simp) hf.fits
  · rw [List.mem_singleton.mp ht]
    exact rep_new hf.le hf.zone
  · rw [hids]
    exact List.nodup_singleton nId
  · rw [hids]
    exact hf.takes.used_append (l := []) (nofun)
  · rw [need_new, room_new, needFrom_const]
    exact hroom

/-- The row that the loop leaves makes up the tree. -/
theorem Grown.wrote {kids' : List Kid} {new : List Int} (hid : 4 ≤ id) (hlen : init.length ≤ 31)
    (hholds : Holds (s'.zones id).idx 32 (kids'.map (·.2.id)))
    (h : Grown [id] s (fun _ => n) (init.map (Sigma.mk n)) ⟨n, last⟩ (31 - init.length) str len s' kids' new) :
    ∃ trees : List (FileTree n), Wrote (n := n + 1) s (id, init ++ [last]) str len s' (id, trees) new := by
  obtain ⟨trees, rfl⟩ := exists_trees h.levels
  have hrow : init.map (Sigma.mk n) ++ [⟨n, last⟩] = (init ++ [last]).map (Sigma.mk n) := by simp
  have hlen_eq := h.len_eq
  have htext := h.text
  have hids := h.ids
  have hcount := h.count
  rw [capFrom_const] at hlen_eq
  rw [hrow, List.flatMap_map, List.flatMap_map] at htext hids
  rw [needFrom_const] at hcount
  refine ⟨trees, rfl, ⟨hid, by rwa [List.map_map] at hholds, fun t ht => h.rep _ (List.mem_map_of_mem ht)⟩, ?_,
    by rwa [room_concat], htext, fun hlt => ?_, hids.cons id, h.takes, fun z hz hnew => ?_, by rwa [need_concat]⟩
  · obtain ⟨init', last', heq, hfull', hpacked'⟩ := h.packed
    obtain ⟨init₀, l, rfl, rfl, hl⟩ := List.map_eq_append_iff.mp heq
    obtain ⟨last₀, rfl, rfl⟩ := List.map_eq_singleton_iff.mp hl
    refine ⟨by simp, fun t ht => ?_, fun t ht => ?_⟩
    · rw [List.dropLast_concat] at ht
      exact hfull' _ (List.mem_map_of_mem ht)
    · rw [List.getLast?_concat, Option.mem_some] at ht
      rwa [← ht]
  · obtain ⟨hcount, hall⟩ := h.full hlt
    rw [List.length_map, List.length_map] at hcount
    exact ⟨by omega, fun t ht => hall _ (List.mem_map_of_mem ht)⟩
  · rw [lastPath_concat, List.mem_cons, not_or] at hz
    exact h.frame z (by simpa using hz.1) hz.2 hnew

/-- The zone that an empty index zone gets first is one of those that it takes. -/
theorem Wrote.first {nId : Int} {t' : FileTree (n + 1)} {new : List Int} (hf : Fresh s nId s') {s'' : Store nb}
    (hne : str ≠ []) (h : Wrote (n := n + 1) s' (id, [FileTree.new n nId]) str len s'' t' new) :
    Wrote (n := n + 1) s (id, []) str len s'' t' (nId :: new) := by
  have hroom : FileTree.room (n := n + 1) (id, [FileTree.new n nId]) = FileTree.room (n := n + 1) (id, []) := by
    rw [← List.nil_append [FileTree.new n nId], room_concat, room_new, room_nil, List.length_nil]
    omega
  have hpos := List.length_pos_of_ne_nil hne
  refine ⟨h.id, h.rep, h.packed, hroom ▸ h.len_eq, ?_, h.full, ?_, hf.takes.trans h.takes, fun z hz hnew => ?_, ?_⟩
  · rw [h.text]
    simp [FileTree.text]
  · refine h.ids.trans ?_
    simp [FileTree.ids]
  · have hmem : z ≠ nId ∧ z ∉ new := by simpa using hnew
    rw [lastPath_nil, List.mem_singleton] at hz
    have hpath : z ∉ FileTree.lastPath (n := n + 1) (id, [FileTree.new n nId]) := by
      rw [← List.nil_append [FileTree.new n nId], lastPath_concat, lastPath_new]
      simp [hz, hmem.1]
    rw [h.frame z hpath hmem.2, hf.frame z hmem.1]
  · rw [List.length_cons, h.count, ← List.nil_append [FileTree.new n nId], need_concat, need_new, room_new, need_nil,
      needNew_succ (m := 31) (by omega), List.length_nil, Nat.sub_zero]
    omega

/-- With entries, the loop starts at the last one. -/
theorem wrtIdxAt_kids {σ : Type} {X : Sem fsSig σ} {t : σ} {zone : Zone} {ids : List Int} {Q : Int → σ → Prop}
    (hread : wp X (Fs.readZone id) (fun r u => r = some zone ∧ u = t) t) (hholds : Holds zone.idx 32 ids) (hne : ids ≠ [])
    (h : wp X (wrtIdxLoop w id str (31 - (ids.length - 1)) (ids.length - 1) 0 zone) Q t) : wp X (wrtIdxAt w id str) Q t := by
  have hzero : ¬zone.idx 0 = 0 := by
    rw [hholds.eq_zero_iff (by omega)]
    have := List.length_pos_of_ne_nil hne
    omega
  have hlast : lastNonzero zone.idx 31 = ids.length - 1 := lastNonzero_eq hholds (by omega) hholds.le
  unfold wrtIdxAt firstZone
  refine wp_seq hread ?_
  rintro _ _ ⟨rfl, rfl⟩
  dsimp only
  rw [if_neg (by simp [hzero])]
  show wp X (wrtIdxLoop w id str (31 - lastNonzero zone.idx 31) (lastNonzero zone.idx 31) 0 zone) Q _
  rwa [hlast]

/-- Without, at a first one that is made. -/
theorem wrtIdxAt_first {σ : Type} {X : Sem fsSig σ} {t : σ} {zone : Zone} {Q : Int → σ → Prop}
    (hread : wp X (Fs.readZone id) (fun r u => r = some zone ∧ u = t) t) (hholds : Holds zone.idx 32 [])
    (h : wp X (firstZone true str) (fun r u => ∃ nId : Int, r = some nId ∧ 4 ≤ nId ∧ nId < 2 ^ 15 ∧
      wp X (wrtIdxLoop w id str 31 0 0 (zone.setIdx 0 nId)) Q u) t) : wp X (wrtIdxAt w id str) Q t := by
  have hzero : zone.idx 0 = 0 := hholds.free 0 (Nat.le_refl _) (by omega)
  unfold wrtIdxAt
  refine wp_seq hread ?_
  rintro _ _ ⟨rfl, rfl⟩
  dsimp only
  rw [decide_eq_true hzero]
  refine wp_seq h ?_
  rintro _ u ⟨nId, rfl, hle, hlt, hloop⟩
  have hfirst : Holds (zone.setIdx 0 nId).idx 32 [nId] := by
    refine hholds.concat (by simp) (by omega) ?_ fun i _ hi => Zone.idx_setIdx_of_ne hi
    exact Zone.idx_setIdx_self (by simp) ⟨by omega, by omega⟩
  have hlast : lastNonzero (zone.setIdx 0 nId).idx 31 = 0 := lastNonzero_eq hfirst (by omega) (by simp)
  show wp X (wrtIdxLoop w id str (31 - lastNonzero (zone.setIdx 0 nId).idx 31) (lastNonzero (zone.setIdx 0 nId).idx 31) 0
    (zone.setIdx 0 nId)) Q u
  rwa [hlast]

/-- `wrt_idx` appends to the trees of one more level. -/
theorem wrtIdxAt_spec [Sized nb] {w : Int → Str → FsM Int} (hw : Writes nb P n w) : Writes nb P (n + 1) (wrtIdxAt w) := by
  rintro s ⟨id, kids⟩ str k h
  have hid := h.rep.1
  have hholds := h.rep.2.1
  show wp (storeSem P) (wrtIdxAt w id str) _ s
  rcases List.eq_nil_or_concat' kids with rfl | ⟨init, last, rfl⟩
  · have hroom : s.Room P (needBelow n str.length + needNew n (needBelow n) 31 (str.length - cap n) + k + 1) := by
      have hpos := List.length_pos_of_ne_nil h.ne
      have := h.room
      rw [need_nil, needNew_succ (m := 31) (by omega)] at this
      exact this.mono (by omega)
    refine wrtIdxAt_first (readZone_spec hid ⟨rfl, rfl⟩) hholds (firstZone_spec rfl h.ne hroom fun nId s' hf hroom' => ?_)
    obtain ⟨hz, hgrow⟩ := h.first hf hroom'
    refine ⟨nId, rfl, hf.le, hf.lt, wp_mono (wrtIdxLoop_spec hw [] hz hgrow (by simpa using h.short)) ?_⟩
    rintro r s'' ⟨len, kids', new, rfl, hholds', hgrown, hroom''⟩
    obtain ⟨trees, hwrote⟩ : ∃ trees : List (FileTree n), Wrote (n := n + 1) s'
      (id, [] ++ [FileTree.new n nId]) str len s'' (id, trees) new :=
      Grown.wrote hid (Nat.zero_le _) hholds' hgrown
    exact ⟨len, _, _, by simp, hwrote.first hf h.ne, hroom''⟩
  · obtain ⟨hz, hgrow⟩ := h.kids
    have hlen : init.length + 1 ≤ 32 := by simpa using hholds.le
    have hlast : ((init ++ [last]).map FileTree.id).length - 1 = init.length := by simp
    refine wrtIdxAt_kids (readZone_spec hid ⟨rfl, rfl⟩) hholds (by simp) ?_
    rw [hlast]
    have hloop := wrtIdxLoop_spec hw [] hz hgrow (by simpa using h.short)
    rw [List.length_map] at hloop
    refine wp_mono hloop ?_
    rintro r s' ⟨len, kids', new, rfl, hholds', hgrown, hroom⟩
    obtain ⟨trees, hwrote⟩ := hgrown.wrote hid (by omega) hholds'
    exact ⟨len, _, new, by simp, hwrote, hroom⟩

end

/-- `wrt_data` and `wrt_idx` append at every level. -/
theorem wrtLevel_spec [Sized nb] : ∀ n, Writes nb P n (wrtLevel n)
  | 0 => wrtData_spec
  | n + 1 => wrtIdxAt_spec (wrtLevel_spec n)

end

end MiniFs
