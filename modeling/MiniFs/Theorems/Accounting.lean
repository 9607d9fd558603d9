import MiniFs.Theorems.Exhaustion

/-! # What a failed append leaves

`wrt_idx` works on a copy of the index zone and returns without writing it back when `get_free_id` fails. The zones that
this call has put into the copy are then lost, and what they hold is counted all the same. -/

namespace MiniFs
open Interact Memory FileTree

/-! ## The tree on the disk -/

theorem Holds.unique {get : Nat → Int} {cap : Nat} {as bs : List Int} (h : Holds get cap as) (h' : Holds get cap bs) :
    as = bs := by
  have hlen : ∀ {as bs : List Int}, Holds get cap as → Holds get cap bs → as.length ≤ bs.length := fun {as bs} h h' => by
    by_contra hlt
    have hcap := h.le
    have hzero := h'.free bs.length (Nat.le_refl _) (by omega)
    rw [h.eq_zero_iff (by omega)] at hzero
    omega
  have heq := Nat.le_antisymm (hlen h h') (hlen h' h)
  exact List.ext_getElem heq fun i hi hi' => (h.used i hi).symm.trans (h'.used i hi')

/-- A zone holds one tree of each level. -/
theorem FileTree.Rep.unique {n : Nat} {zones : Int → Zone} {t t' : FileTree n} (h : t.Rep zones) (h' : t'.Rep zones)
    (hid : t.id = t'.id) : t = t' := by
  induction n with
  | zero =>
    obtain ⟨id, text⟩ := t
    obtain ⟨id', text'⟩ := t'
    obtain rfl : id = id' := hid
    exact congrArg (Prod.mk id) (h.2.unique h'.2)
  | succ n ih =>
    obtain ⟨id, kids⟩ := t
    obtain ⟨id', kids'⟩ := t'
    obtain rfl : id = id' := hid
    have hids := h.2.1.unique h'.2.1
    have hlen : kids.length = kids'.length := by simpa using congrArg List.length hids
    refine congrArg (Prod.mk id) (List.ext_getElem hlen fun i hi hi' => ?_)
    refine ih (h.2.2 _ (List.getElem_mem hi)) (h'.2.2 _ (List.getElem_mem hi')) ?_
    have hget := congrArg (·[i]?) hids
    simpa [hi, hi'] using hget

/-- The tree is on the disk, full up to its last data zone, and its zones are in use, each once. -/
structure FileTree.Sound (s : Store) {n : Nat} (t : FileTree n) : Prop where
  rep : t.Rep s.zones
  ready : t.Ready
  nodup : t.ids.Nodup
  used : ∀ z ∈ t.ids, s.Used z

/-- The tree has taken the first `len` characters of `str` and the zones `new`, and the zones `lost` were taken as well. -/
structure Gained (s : Store) {n : Nat} (t : FileTree n) (str : Str) (len : Nat) (s' : Store) (t' : FileTree n)
    (new lost : List Int) : Prop where
  id : t'.id = t.id
  rep : t'.Rep s'.zones
  text : t'.text = t.text ++ str.take len
  ids : t'.ids.Perm (t.ids ++ new)
  takes : s.Takes (new ++ lost) s'
  frame : ∀ z, z ∉ t.ids → z ∉ new ++ lost → s'.zones z = s.zones z

section
variable {n : Nat} {s s₁ s₂ s' : Store} {t t' : FileTree n} {str str₂ : Str} {len len₂ : Nat} {new new₂ lost lost₂ : List Int}
  {id nId : Int} {init : List (FileTree n)} {last last' : FileTree n}

theorem FileTree.Sound.writable {k : Nat} (h : t.Sound s) (hne : str ≠ []) (hnul : NulFree str) (hshort : str.length < 2 ^ 15)
    (hroom : t.need str.length + k ≤ s.free) : Writable .all s t str k :=
  ⟨h.rep, h.ready, h.nodup, h.used, hne, hnul, hshort, Or.inr hroom⟩

theorem FileTree.sound_new {z : Int} (h4 : 4 ≤ z) (hz : s.zones z = .zero) (hu : s.Used z) : (FileTree.new n z).Sound s where
  rep := rep_new h4 hz
  ready := ready_new z
  nodup := by
    rw [ids_new]
    exact List.nodup_singleton z
  used := by
    rw [ids_new]
    intro z' hz'
    rwa [List.mem_singleton.mp hz']

theorem Fresh.sound (h : Fresh s nId s') : (FileTree.new n nId).Sound s' :=
  sound_new h.le h.zone (h.takes.used_append (l := []) nofun nId List.mem_cons_self)

theorem Fresh.free_add (h : Fresh s nId s') : s'.free + 1 = s.free := h.takes.free_add

theorem FileTree.Sound.lastKid (h : Sound (n := n + 1) s (id, init ++ [last])) : last.Sound s where
  rep := h.rep.2.2 last (by simp)
  ready := h.ready.2 last (by simp)
  nodup := by
    have hnodup : (id :: (init ++ [last]).flatMap FileTree.ids).Nodup := h.nodup
    rw [flatMap_concat] at hnodup
    exact (List.nodup_append.mp (List.nodup_cons.mp hnodup).2).2.1
  used := fun z hz => h.used z (List.mem_cons_of_mem _ (by rw [flatMap_concat]; exact List.mem_append_right _ hz))

theorem Gained.refl (h : t.Sound s) : Gained s t str 0 s t [] [] :=
  ⟨rfl, h.rep, by simp, by simp, .nil fun _ => rfl, fun _ _ _ => rfl⟩

theorem Wrote.gained (h : Wrote s t str len s' t' new) : Gained s t str len s' t' new [] where
  id := h.id
  rep := h.rep
  text := h.text
  ids := h.ids
  takes := by
    rw [List.append_nil]
    exact h.takes
  frame := fun z hz hnew => h.frame z (fun hl => hz (lastPath_subset z hl)) (by rwa [List.append_nil] at hnew)

theorem Gained.free_add (h : Gained s t str len s' t' new lost) : s'.free + (new.length + lost.length) = s.free := by
  have hfree := h.takes.free_add
  rwa [List.length_append] at hfree

/-- The index zone and the entries before the last one stay as they are. -/
theorem Gained.keeps (ht : Sound (n := n + 1) s (id, init ++ [last])) (h : Gained s last str len s' last' new lost) :
    ∀ z ∈ id :: init.flatMap FileTree.ids, s'.zones z = s.zones z := by
  have hnodup : (id :: (init ++ [last]).flatMap FileTree.ids).Nodup := ht.nodup
  rw [flatMap_concat, List.nodup_cons] at hnodup
  obtain ⟨hid, hdisj⟩ := hnodup
  intro z hz
  refine h.frame z (fun hl => ?_) (h.takes.not_mem (ht.used z ?_))
  · rcases List.mem_cons.mp hz with rfl | hz
    · exact hid (List.mem_append_right _ hl)
    · exact (List.nodup_append.mp hdisj).2.2 z hz z hl rfl
  · rcases List.mem_cons.mp hz with rfl | hz
    · exact List.mem_cons_self
    · exact List.mem_cons_of_mem _ (by rw [flatMap_concat]; exact List.mem_append_left _ hz)

/-- What the last entry of an index zone has taken, the index zone has. -/
theorem Gained.row (ht : Sound (n := n + 1) s (id, init ++ [last])) (h : Gained s last str len s' last' new lost) :
    Gained (n := n + 1) s (id, init ++ [last]) str len s' (id, init ++ [last']) new lost := by
  have hkeep := h.keeps ht
  have hmap : (init ++ [last']).map FileTree.id = (init ++ [last]).map FileTree.id := by simp [h.id]
  refine ⟨rfl, ⟨ht.rep.1, ?_, fun k hk => ?_⟩, ?_, ?_, h.takes, fun z hz hnew => h.frame z (fun hl => hz ?_) hnew⟩
  · rw [hmap, hkeep id List.mem_cons_self]
    exact ht.rep.2.1
  · rcases List.mem_append.mp hk with hk | hk
    · refine (ht.rep.2.2 k (List.mem_append_left _ hk)).congr fun z hz => hkeep z ?_
      exact List.mem_cons_of_mem _ (List.mem_flatMap.mpr ⟨k, hk, hz⟩)
    · rw [List.mem_singleton.mp hk]
      exact h.rep
  · show (init ++ [last']).flatMap FileTree.text = (init ++ [last]).flatMap FileTree.text ++ str.take len
    rw [flatMap_concat, flatMap_concat, h.text, List.append_assoc]
  · show (id :: (init ++ [last']).flatMap FileTree.ids).Perm (id :: (init ++ [last]).flatMap FileTree.ids ++ new)
    rw [flatMap_concat, flatMap_concat, List.cons_append, List.append_assoc]
    exact (h.ids.append_left _).cons id
  · exact List.mem_cons_of_mem _ (by rw [flatMap_concat]; exact List.mem_append_right _ hl)

/-- A tree in a new zone that nothing refers to is lost. -/
theorem Gained.lose {m : Nat} {u : FileTree m} (ht : ∀ z ∈ t.ids, s.Used z) (h : Gained s t str len s₁ t' new lost)
    (hf : Fresh s₁ nId s₂) (hu : Gained s₂ (FileTree.new m nId) str₂ len₂ s' u new₂ lost₂) :
    Gained s t str len s' t' new (lost ++ nId :: (new₂ ++ lost₂)) := by
  have hused : ∀ z ∈ t'.ids, s₁.Used z := fun z hz => by
    refine h.takes.used_append ht z ?_
    rw [← List.append_assoc]
    exact List.mem_append_left _ (h.ids.mem_iff.mp hz)
  refine ⟨h.id, h.rep.congr fun z hz => ?_, h.text, h.ids, ?_, fun z hz hnew => ?_⟩
  · have hne : z ∉ [nId] := hf.takes.not_mem (hused z hz)
    rw [hu.frame z (by rwa [ids_new]) (hu.takes.not_mem (hf.takes.used (hused z hz))),
      hf.frame z fun heq => hne (List.mem_singleton.mpr heq)]
  · have htakes := (h.takes.trans hf.takes).trans hu.takes
    simpa using htakes
  · simp only [List.mem_append, List.mem_cons, not_or] at hnew
    obtain ⟨hnew, hlost, hne, hnew₂, hlost₂⟩ := hnew
    rw [hu.frame z (by simpa using hne) (by simp [hnew₂, hlost₂]), hf.frame z hne, h.frame z hz (by simp [hnew, hlost])]

/-- A tree in a new zone that the index zone refers to in the end. -/
theorem Gained.grow {u : FileTree n} (ht : Sound (n := n + 1) s (id, init ++ [last])) (hlen : init.length + 1 < 32)
    (h : Gained s last str len s₁ last' new []) (hf : Fresh s₁ nId s₂)
    (hu : Gained s₂ (FileTree.new n nId) (str.drop len) len₂ s' u new₂ lost₂) :
    Gained (n := n + 1) s (id, init ++ [last]) str (len + len₂) (s'.write id ((s.zones id).setIdx (init.length + 1) nId))
      (id, init ++ [last'] ++ [u]) (new ++ nId :: new₂) lost₂ := by
  have hrow := h.row ht
  have hlose := hrow.lose ht.used hf hu
  rw [List.nil_append] at hlose
  have hids : u.ids.Perm (nId :: new₂) := by simpa using hu.ids
  have htakes : s.Takes (new ++ nId :: new₂ ++ lost₂) s' := by simpa using hlose.takes
  have hperm : ((id :: (init ++ [last'] ++ [u]).flatMap FileTree.ids) : List Int).Perm
      (id :: (init ++ [last]).flatMap FileTree.ids ++ (new ++ nId :: new₂)) := by
    have hkids : (id :: (init ++ [last']).flatMap FileTree.ids).Perm (id :: (init ++ [last]).flatMap FileTree.ids ++ new) :=
      hrow.ids
    rw [flatMap_concat, ← List.cons_append, ← List.append_assoc]
    exact hkids.append hids
  have hnodup : (id :: (init ++ [last'] ++ [u]).flatMap FileTree.ids).Nodup := by
    have hall := htakes.nodup_append ht.nodup ht.used
    rw [← List.append_assoc] at hall
    exact hperm.nodup_iff.mpr (List.nodup_append.mp hall).1
  have hid := (List.nodup_cons.mp hnodup).1
  refine ⟨rfl, ⟨ht.rep.1, ?_, fun k hk => ?_⟩, ?_, hperm, ⟨htakes.nodup, htakes.free, htakes.state⟩, fun z hz hnew => ?_⟩
  · have hholds : Holds (s.zones id).idx 32 ((init ++ [last]).map FileTree.id) := ht.rep.2.1
    have hmap : (init ++ [last']).map FileTree.id = (init ++ [last]).map FileTree.id := by simp [h.id]
    have hu' : u.id = nId := by simpa using hu.id
    have hlen' : ((init ++ [last]).map FileTree.id).length = init.length + 1 := by simp
    rw [Store.zones_write_self, List.map_append, hmap, List.map_singleton, hu']
    refine hholds.concat (by omega) hf.ne_zero ?_ fun i _ hi => ?_
    · rw [hlen']
      exact Zone.idx_setIdx_self (by omega) hf.fits
    · rw [hlen'] at hi
      exact Zone.idx_setIdx_of_ne hi
  · have hrep : k.Rep s'.zones := by
      rcases List.mem_append.mp hk with hk | hk
      · exact hlose.rep.2.2 k hk
      · rw [List.mem_singleton.mp hk]
        exact hu.rep
    refine hrep.congr fun z hz => Store.zones_write_of_ne _ ?_
    rintro rfl
    exact hid (List.mem_flatMap.mpr ⟨k, hk, hz⟩)
  · show (init ++ [last'] ++ [u]).flatMap FileTree.text = (init ++ [last]).flatMap FileTree.text ++ str.take (len + len₂)
    have htext : (init ++ [last']).flatMap FileTree.text = (init ++ [last]).flatMap FileTree.text ++ str.take len := hrow.text
    have hutext : u.text = (str.drop len).take len₂ := by simpa using hu.text
    rw [flatMap_concat, htext, hutext, List.take_add, List.append_assoc]
  · have hne : z ≠ id := fun heq => hz (heq ▸ List.mem_cons_self)
    rw [Store.zones_write_of_ne _ hne]
    exact hlose.frame z hz (by simpa using hnew)

/-- A call that leaves some of the string since no zone is free. It counts `extra` characters that the tree does not have. -/
structure Short (s : Store) {n : Nat} (t : FileTree n) (str : Str) (len extra : Nat) (s' : Store) (t' : FileTree n)
    (new lost : List Int) : Prop extends Gained s t str len s' t' new lost where
  counted : lost = [] → extra = 0
  lt : len + extra < str.length
  full : s'.free = 0

end

/-! ## Allocation -/

section
variable {α : Type} {s s' : Store} {Q : α → Store → Prop} {f g : Int → FsM α}

theorem drain_fresh (hfree : s.free ≠ 0) (h : ∀ id s', Fresh s id s' → wp drainSem (f id) Q s') :
    wp drainSem
      (do
        let id ← Fs.getFreeId fOccupied
        if id ≥ 0 then
          Fs.writeZone id .zero
          f id
        else g id) Q s := by
  have hroom : s.Room .all (0 + 1) := Or.inr (by omega)
  refine wp_bind.mpr (wp_of_le drainSem_le
    (getFreeId_spec isState_fOccupied (by decide) hroom fun id s' h4 hlt hs hset _ => ?_))
  rw [if_pos (by omega)]
  exact wp_bind.mpr (wp_of_le drainSem_le (writeZone_spec h4 (h id _ (hset.fresh h4 hlt hs))))

theorem drain_none (hfree : s.free = 0) (h : wp drainSem (g (-1)) Q s) :
    wp drainSem
      (do
        let id ← Fs.getFreeId fOccupied
        if id ≥ 0 then
          Fs.writeZone id .zero
          f id
        else g id) Q s := wp_bind.mpr ((drain_getFreeId hfree).mpr h)

end

/-! ## The start of `wrt_idx` -/

section
variable {n : Nat} {s : Store} {id : Int} {str : Str} {init : List (FileTree n)} {last : FileTree n} {w : Int → Str → FsM Int}
  {Q : Int → Store → Prop}

theorem drain_kids (hrep : Rep (n := n + 1) s.zones (id, init ++ [last]))
    (h : wp drainSem (wrtIdxLoop w id str (31 - init.length) init.length 0 (s.zones id)) Q s) :
    wp drainSem (wrtIdxAt w id str) Q s := by
  have hlast : ((init ++ [last]).map FileTree.id).length - 1 = init.length := by simp
  refine wrtIdxAt_kids (wp_of_le drainSem_le (readZone_spec hrep.1 ⟨rfl, rfl⟩)) hrep.2.1 (by simp) ?_
  rwa [hlast]

theorem drain_first (hrep : Rep (n := n + 1) s.zones (id, [])) (hne : str ≠ []) (hfree : s.free ≠ 0)
    (h : ∀ nId s', Fresh s nId s' → wp drainSem (wrtIdxLoop w id str 31 0 0 ((s.zones id).setIdx 0 nId)) Q s') :
    wp drainSem (wrtIdxAt w id str) Q s := by
  refine wrtIdxAt_first (wp_of_le drainSem_le (readZone_spec hrep.1 ⟨rfl, rfl⟩)) hrep.2.1 ?_
  have hroom : s.Room .all (0 + 1) := Or.inr (by omega)
  refine wp_mono (wp_of_le drainSem_le (firstZone_spec (Q := fun r s' => ∃ nId, r = some nId ∧ Fresh s nId s') rfl hne hroom
    fun nId s' hf _ => ⟨nId, rfl, hf⟩)) ?_
  rintro r s' ⟨nId, rfl, hf⟩
  exact ⟨nId, rfl, hf.le, hf.lt, h nId s' hf⟩

/-- Without a first entry, and without one to come, the loop starts with zone 0. -/
theorem wrtIdxAt_none (hrep : Rep (n := n + 1) s.zones (id, [])) (h : str = [] ∨ s.free = 0) :
    wp drainSem (wrtIdxAt w id str) Q s ↔ wp drainSem (wrtIdxLoop w id str 31 0 0 (s.zones id)) Q s := by
  have hholds : Holds (s.zones id).idx 32 [] := hrep.2.1
  have hlast : lastNonzero (s.zones id).idx 31 = 0 := lastNonzero_eq hholds (by omega) (by simp)
  have hread : ∀ o, drainSem.op (.readZone id) s o ↔ o = some (some (s.zones id), s) := fun o => by
    show o = some (if id < 4 then none else some (s.zones id), s) ↔ _
    rw [if_neg (by have := hrep.1; omega)]
  have hfirst : ∀ {Q : Option Int → Store → Prop}, wp drainSem (firstZone ((s.zones id).idx 0 = 0) str) Q s ↔ Q none s := by
    intro Q
    unfold firstZone
    by_cases hne : str = []
    · rw [if_neg fun hc => hc.2 hne]
      exact wp_ret
    · split
      · exact wp_bind.trans ((drain_getFreeId (h.resolve_left hne)).trans (by rw [if_neg (by decide)]; exact wp_ret))
      · exact wp_ret
  unfold wrtIdxAt
  rw [wp_bind]
  refine (wp_op_eq hread).trans ?_
  refine wp_ret.trans (wp_bind.trans (hfirst.trans ?_))
  show wp drainSem (wrtIdxLoop w id str (31 - lastNonzero (s.zones id).idx 31) (lastNonzero (s.zones id).idx 31) 0
    (s.zones id)) Q s ↔ _
  rw [hlast]

end

/-! ## Index zones of data zones -/

section
variable {s : Store} {id : Int} {zone : Zone} {str : Str}

/-- The loop of `wrt_idx` over data zones with too few free zones: all that it takes is lost. -/
theorem wrtIdxLoop_short {last : FileTree 0} {m idx : Nat} (pre : Str) (hlast : last.Sound s) (hidx : zone.idx idx = last.id)
    (hslots : idx + m = 31) (hne : str ≠ []) (hnul : NulFree str) (hshort : pre.length + str.length < 2 ^ 15)
    (hfree : s.free < needNew 0 (needBelow 0) m (str.length - last.room)) :
    wp drainSem (wrtIdxLoop wrtData id (pre ++ str) m idx pre.length zone)
      (fun r s' => ∃ (len extra : Nat) (last' : FileTree 0) (lost : List Int), r = (pre.length + (len + extra) : Nat) ∧
        Short s last str len extra s' last' [] lost) s := by
  induction m generalizing s zone idx last str pre with
  | zero => exact absurd hfree (Nat.not_lt_zero _)
  | succ m ih =>
    have hpos : str.length - last.room ≠ 0 := fun h0 => by
      rw [h0, needNew_zero] at hfree
      exact Nat.not_lt_zero _ hfree
    have hroom : last.need str.length + 0 ≤ s.free := Nat.zero_le _
    rw [needNew_succ hpos] at hfree
    refine wp_round pre hshort ?_
    rw [hidx]
    refine wp_mono (wp_of_le drainSem_le (wrtData_spec s last str 0
      (hlast.writable hne hnul (by omega) hroom))) ?_
    rintro r s₁ ⟨len, last₁, new, rfl, hw, -⟩
    obtain rfl : new = [] := List.eq_nil_of_length_eq_zero hw.count
    have hlen := hw.len_eq
    have hlt : len < str.length := by omega
    refine ⟨len, rfl, hlt.le, ?_⟩
    have hrest : str.drop len ≠ [] := mt List.drop_eq_nil_iff.mp (Nat.not_le.mpr hlt)
    have hfree₁ := hw.gained.free_add
    rw [wrtIdxNext_succ hrest]
    by_cases hzero : s₁.free = 0
    · refine drain_none hzero (wp_ret.mpr ⟨len, 0, last₁, [], rfl, hw.gained, fun _ => rfl, hlt, hzero⟩)
    · refine drain_fresh hzero fun nId s₂ hf => ?_
      have hfree₂ := hf.free_add
      have hpre : (pre ++ str.take len).length = pre.length + len := by
        rw [List.length_append, List.length_take]
        omega
      have hih := @ih s₂ (zone.setIdx (idx + 1) nId) (str.drop len) (FileTree.new 0 nId) (idx + 1) (pre ++ str.take len)
        hf.sound (Zone.idx_setIdx_self (by omega) hf.fits) (by omega) hrest (hnul.drop len)
        (by rw [hpre, List.length_drop]; omega) ?_
      · rw [List.append_assoc, List.take_append_drop, hpre] at hih
        refine wp_mono hih ?_
        rintro r s' ⟨len₂, extra, u, lost, rfl, hs⟩
        have hle := hs.lt
        rw [List.length_drop] at hle
        refine ⟨len, len₂ + extra, last₁, _, by rw [Nat.add_assoc], hw.gained.lose hlast.used hf hs.toGained, fun hnil => ?_,
          ?_, hs.full⟩
        · simp at hnil
        · omega
      · rw [room_new, List.length_drop]
        simp only [List.length_nil] at hfree₁
        have heq : str.length - last.room = str.length - len := by omega
        rw [heq] at hfree
        have hbelow : needBelow 0 (str.length - len) = 0 := rfl
        omega

end

/-- `wrt_idx` of data zones with too few free zones: it stores what the last data zone takes. -/
theorem wrtLevel_one_short {s : Store} {t : FileTree 1} {str : Str} (h : t.Sound s) (hne : str ≠ []) (hnul : NulFree str)
    (hshort : str.length < 2 ^ 15) (hfree : s.free < t.need str.length) :
    wp drainSem (wrtLevel 1 t.id str)
      (fun r s' => ∃ (len extra : Nat) (t' : FileTree 1) (lost : List Int), r = (len + extra : Nat) ∧
        Short s t str len extra s' t' [] lost) s := by
  obtain ⟨id, kids⟩ := t
  have hpos := List.length_pos_of_ne_nil hne
  show wp drainSem (wrtIdxAt wrtData id str) _ s
  rcases List.eq_nil_or_concat' kids with rfl | ⟨init, last, rfl⟩
  · by_cases hzero : s.free = 0
    · refine (wrtIdxAt_none h.rep (Or.inr hzero)).mpr ?_
      have hholds : Holds (s.zones id).idx 32 [] := h.rep.2.1
      refine wp_round [] (by simpa using hshort) ?_
      rw [hholds.free 0 (Nat.le_refl _) (by omega)]
      refine wp_bind.mpr (wp_of_le drainSem_le (readZone_null (by omega) (wp_ret.mpr ⟨0, rfl, Nat.zero_le _, ?_⟩)))
      rw [List.drop_zero, wrtIdxNext_succ hne]
      exact drain_none hzero (wp_ret.mpr ⟨0, 0, _, [], rfl, .refl h, fun _ => rfl, hpos, hzero⟩)
    · refine drain_first h.rep hne hzero fun nId s₁ hf => ?_
      have hfree₁ := hf.free_add
      rw [need_nil, needNew_succ (m := 31) (by omega)] at hfree
      have hneed : s.free < 1 + 0 + needNew 0 (needBelow 0) 31 (str.length - cap 0) := hfree
      have hidx : ((s.zones id).setIdx 0 nId).idx 0 = (FileTree.new 0 nId).id := Zone.idx_setIdx_self (by omega) hf.fits
      refine wp_mono (wrtIdxLoop_short (m := 31) [] hf.sound hidx rfl hne hnul (by simpa using hshort)
        (by rw [room_new]; omega)) ?_
      rintro r s' ⟨len, extra, u, lost, rfl, hs⟩
      refine ⟨0, len + extra, _, _, rfl, (Gained.refl h).lose h.used hf hs.toGained, fun hnil => ?_, ?_, hs.full⟩
      · cases hnil
      · have := hs.lt
        omega
  · have hlen : init.length + 1 ≤ 32 := by simpa using h.rep.2.1.le
    have hidx : (s.zones id).idx init.length = last.id := by simpa using h.rep.2.1.used init.length (by simp)
    rw [need_concat] at hfree
    refine drain_kids h.rep (wp_mono (wrtIdxLoop_short [] h.lastKid hidx (by omega) hne hnul (by simpa using hshort)
      (hfree.trans_eq (Nat.zero_add _))) ?_)
    rintro r s' ⟨len, extra, last', lost, rfl, hs⟩
    exact ⟨len, extra, _, lost, by simp, hs.toGained.row h, hs.counted, hs.lt, hs.full⟩

/-! ## Index zones of index zones -/

section
variable {n : Nat} {s s₁ s₂ s' : Store} {id nId : Int} {zone : Zone} {str : Str} {w : Int → Str → FsM Int}

/-- When the call for an entry leaves some of the string, the loop ends: no zone is free for one more entry. -/
theorem wrtIdxLoop_of_short {last : FileTree n} {m idx : Nat} (pre : Str) (hid : 4 ≤ id) (hidx : zone.idx idx = last.id)
    (hshort : pre.length + str.length < 2 ^ 15)
    (hw : wp drainSem (w last.id str) (fun r s' => ∃ (len extra : Nat) (last' : FileTree n) (lost : List Int),
      r = (len + extra : Nat) ∧ Short s last str len extra s' last' [] lost) s) :
    wp drainSem (wrtIdxLoop w id (pre ++ str) m idx pre.length zone)
      (fun r s'' => ∃ (s' : Store) (len extra : Nat) (last' : FileTree n) (lost : List Int),
        r = (pre.length + (len + extra) : Nat) ∧ Short s last str len extra s' last' [] lost ∧
        s'' = if m = 0 then s'.write id zone else s') s := by
  have hw' := hw
  rw [← hidx] at hw'
  cases m with
  | zero =>
    refine wp_round pre hshort (wp_mono hw' ?_)
    rintro r s' ⟨len, extra, last', lost, rfl, hs⟩
    refine ⟨len + extra, rfl, hs.lt.le, wp_bind.mpr (wp_of_le drainSem_le (writeZone_spec hid (wp_ret.mpr ?_)))⟩
    exact ⟨s', len, extra, last', lost, rfl, hs, (if_pos rfl).symm⟩
  | succ m =>
    refine wp_round pre hshort (wp_mono hw' ?_)
    rintro r s' ⟨len, extra, last', lost, rfl, hs⟩
    refine ⟨len + extra, rfl, hs.lt.le, ?_⟩
    rw [wrtIdxNext_succ (mt List.drop_eq_nil_iff.mp (Nat.not_le.mpr hs.lt))]
    exact drain_none hs.full (wp_ret.mpr ⟨s', len, extra, last', lost, rfl, hs, (if_neg (Nat.succ_ne_zero m)).symm⟩)

/-- `wrt_idx` of index zones with too few free zones: nothing is lost only if the call for the last entry finds no zone or
    takes them all, or if one more is the last entry that the index zone has. -/
theorem wrtLevel_two_short {init : List (FileTree 1)} {last : FileTree 1} (h : Sound (n := 2) s (id, init ++ [last]))
    (hne : str ≠ []) (hnul : NulFree str) (hshort : str.length < 128)
    (hfree : s.free < need (n := 2) (id, init ++ [last]) str.length) :
    wp drainSem (wrtLevel 2 id str)
      (fun r s' => ∃ (len extra : Nat) (t' : FileTree 2) (new lost : List Int), r = (len + extra : Nat) ∧
        Short (n := 2) s (id, init ++ [last]) str len extra s' t' new lost ∧
        (lost = [] ↔ s.free = 0 ∨ s.free = last.need str.length ∨
          (init.length = 30 ∧ s.free = last.need str.length + 1))) s := by
  have hid := h.rep.1
  have hlen : init.length + 1 ≤ 32 := by simpa using h.rep.2.1.le
  have hidx : (s.zones id).idx init.length = last.id := by simpa using h.rep.2.1.used init.length (by simp)
  have hneed : s.free < last.need str.length + needNew 1 (needBelow 1) (31 - init.length) (str.length - last.room) := by
    rw [need_concat] at hfree
    exact hfree
  refine drain_kids h.rep ?_
  by_cases hlast : s.free < last.need str.length
  · refine wp_mono (wrtIdxLoop_of_short [] hid hidx (by simpa using by omega)
      (wrtLevel_one_short h.lastKid hne hnul (by omega) hlast)) ?_
    rintro r s'' ⟨s', len, extra, last', lost, rfl, hs, rfl⟩
    have hrow := hs.toGained.row h
    have hzone : s'.zones id = s.zones id := hs.toGained.keeps h id List.mem_cons_self
    have hwrite : (if 31 - init.length = 0 then s'.write id (s.zones id) else s') = s' := by
      split
      · rw [← hzone, Store.write_self]
      · rfl
    have hadd := hs.toGained.free_add
    have hfull := hs.full
    rw [hwrite]
    refine ⟨len, extra, _, [], lost, by simp, ⟨hrow, hs.counted, hs.lt, hs.full⟩, ?_⟩
    rw [← List.length_eq_zero_iff]
    simp only [List.length_nil] at hadd
    omega
  · obtain ⟨m, hm⟩ : ∃ m, 31 - init.length = m + 1 := by
      refine Nat.exists_eq_succ_of_ne_zero fun h0 => ?_
      rw [h0] at hneed
      exact hlast hneed
    have hpos : str.length - last.room ≠ 0 := fun h0 => by
      rw [h0, needNew_zero] at hneed
      exact hlast hneed
    have hcap : cap 1 = 2016 := by decide
    have hrest : str.length - last.room - cap 1 = 0 := by omega
    rw [hm, needNew_succ hpos, hrest, needNew_zero] at hneed
    rw [hm]
    refine wp_round [] (by simpa using by omega) ?_
    rw [hidx]
    refine wp_mono (wp_of_le drainSem_le
      (wrtLevel_spec 1 s last str 0 (h.lastKid.writable hne hnul (by omega) (by omega)))) ?_
    rintro r s₁ ⟨len, last₁, new, rfl, hw, -⟩
    have hlen_eq := hw.len_eq
    have hcount := hw.count
    have hadd := hw.gained.free_add
    rw [List.length_nil] at hadd
    have hlt : len < str.length := by omega
    have hdrop : str.drop len ≠ [] := mt List.drop_eq_nil_iff.mp (Nat.not_le.mpr hlt)
    refine ⟨len, rfl, hlt.le, ?_⟩
    rw [wrtIdxNext_succ hdrop]
    by_cases hzero : s₁.free = 0
    · refine drain_none hzero (wp_ret.mpr ⟨len, 0, _, new, [], by simp, ⟨hw.gained.row h, fun _ => rfl, hlt, hzero⟩, ?_⟩)
      simp only [true_iff]
      omega
    · refine drain_fresh hzero fun nId s₂ hf => ?_
      have hfree₂ := hf.free_add
      have hpre : (str.take len).length = len := List.length_take_of_le hlt.le
      have hshort₂ : s₂.free < (FileTree.new 1 nId).need (str.drop len).length := by
        have heq : str.length - last.room = str.length - len := by omega
        rw [need_new, List.length_drop, ← heq]
        omega
      have hidx₂ : ((s.zones id).setIdx (init.length + 1) nId).idx (init.length + 1) = (FileTree.new 1 nId).id :=
        (Zone.idx_setIdx_self (by omega) hf.fits).trans (id_new nId).symm
      have hloop := wrtIdxLoop_of_short (m := m) (str.take len) hid hidx₂ (by rw [hpre, List.length_drop]; omega)
        (wrtLevel_one_short hf.sound hdrop (hnul.drop len) (by rw [List.length_drop]; omega) hshort₂)
      rw [List.take_append_drop, hpre] at hloop
      rw [List.length_nil, Nat.zero_add]
      refine wp_mono hloop ?_
      rintro r s'' ⟨s', len₂, extra, u, lost, rfl, hs, rfl⟩
      have hlt₂ := hs.lt
      have hadd₂ := hs.toGained.free_add
      have hfull := hs.full
      rw [List.length_drop] at hlt₂
      rw [List.length_nil] at hadd₂
      by_cases hm0 : m = 0
      · rw [if_pos hm0]
        refine ⟨len + len₂, extra, _, _, lost, by rw [Nat.add_assoc],
          ⟨hw.gained.grow h (by omega) hf hs.toGained, hs.counted, by omega, hs.full⟩, ?_⟩
        rw [← List.length_eq_zero_iff]
        omega
      · rw [if_neg hm0]
        have hlose := (hw.gained.row h).lose h.used hf hs.toGained
        refine ⟨len, len₂ + extra, _, _, _, rfl,
          ⟨hlose, fun hnil => absurd hnil (List.cons_ne_nil _ _), by omega, hs.full⟩, ?_⟩
        refine ⟨fun hnil => absurd hnil (List.cons_ne_nil _ _), fun hcase => ?_⟩
        omega

/-- Without an entry a first one is made, and it is lost when the zones do not reach. -/
theorem wrtLevel_two_first (h : Sound (n := 2) s (id, [])) (hne : str ≠ []) (hnul : NulFree str) (hshort : str.length < 128)
    (hzero : s.free ≠ 0) (hfree : s.free < need (n := 2) (id, []) str.length) :
    wp drainSem (wrtLevel 2 id str)
      (fun r s' => ∃ (len extra : Nat) (t' : FileTree 2) (new lost : List Int), r = (len + extra : Nat) ∧
        Short (n := 2) s (id, []) str len extra s' t' new lost ∧ (lost = [] ↔ False)) s := by
  have hpos := List.length_pos_of_ne_nil hne
  have hcap : cap 1 = 2016 := by decide
  have hrest : str.length - cap 1 = 0 := by omega
  have hneed : s.free < 1 + needBelow 1 str.length + 0 := by
    rw [need_nil, needNew_succ (m := 31) (by omega), hrest, needNew_zero] at hfree
    exact hfree
  refine drain_first h.rep hne hzero fun nId s₁ hf => ?_
  have hfree₁ := hf.free_add
  have hidx : ((s.zones id).setIdx 0 nId).idx 0 = (FileTree.new 1 nId).id :=
    (Zone.idx_setIdx_self (by omega) hf.fits).trans (id_new nId).symm
  refine wp_mono (wrtIdxLoop_of_short (m := 31) [] h.rep.1 hidx (by simpa using by omega)
    (wrtLevel_one_short hf.sound hne hnul (by omega) (by rw [need_new]; omega))) ?_
  rintro r s'' ⟨s', len, extra, u, lost, rfl, hs, hend⟩
  obtain rfl : s'' = s' := hend.trans (if_neg (by decide))
  refine ⟨0, len + extra, _, [], _, by simp, ⟨(Gained.refl h).lose h.used hf hs.toGained, fun hnil => ?_, ?_, hs.full⟩, ?_⟩
  · exact absurd hnil (List.cons_ne_nil _ _)
  · have := hs.lt
    omega
  · exact ⟨fun hnil => List.cons_ne_nil _ _ hnil, False.elim⟩

end

/-! ## The empty string -/

section
variable {n : Nat} {s : Store} {id : Int} {zone : Zone} {w : Int → Str → FsM Int}

theorem wrtData_nil {t : FileTree 0} (h : t.Rep s.zones) :
    wp drainSem (wrtData t.id []) (fun r s' => r = 0 ∧ s' = s) s := by
  obtain ⟨id, text⟩ := t
  obtain ⟨hid, hstr⟩ := h
  have hlen : 0 + text.length < 64 := hstr.fits
  have hsame : (s.zones id).blit text.length ([] ++ [0]) = s.zones id := by
    funext j
    unfold Bytes.blit
    split
    · rename_i hj
      have hval : j.val = 0 + text.length := by
        rw [List.nil_append, List.length_singleton] at hj
        omega
      have hget : (s.zones id).get j.val = s.zones id j := dif_pos j.isLt
      rw [← hget, hval, hstr.nul, Nat.zero_add, Nat.sub_self]
      rfl
    · rfl
  show wp drainSem (wrtData id []) _ s
  unfold wrtData
  refine wp_bind.mpr (wp_of_le drainSem_le (readZone_spec hid ?_))
  simp only [cstr?_eq hstr]
  refine wp_bind.mpr (wp_ret.mpr ?_)
  rw [if_pos (by unfold zoneSize; simp; omega), hsame]
  refine wp_bind.mpr (wp_of_le drainSem_le (writeZone_spec hid (wp_ret.mpr ⟨rfl, Store.write_self s id⟩)))

theorem wrtIdxLoop_nil {m idx : Nat} (hid : 4 ≤ id)
    (hw : wp drainSem (w ((s.zones id).idx idx) []) (fun r s' => r = 0 ∧ s' = s) s) :
    wp drainSem (wrtIdxLoop w id [] m idx 0 (s.zones id)) (fun r s' => r = 0 ∧ s' = s) s := by
  refine wp_round [] (by decide) (wp_mono hw ?_)
  rintro r s' ⟨rfl, rfl⟩
  refine ⟨0, rfl, Nat.le_refl _, ?_⟩
  rw [List.drop_zero, wrtIdxNext_end (Or.inr rfl)]
  exact wp_bind.mpr (wp_of_le drainSem_le (writeZone_spec hid (wp_ret.mpr ⟨rfl, Store.write_self _ id⟩)))

theorem wrtLevel_one_nil {t : FileTree 1} (h : t.Rep s.zones) :
    wp drainSem (wrtLevel 1 t.id []) (fun r s' => r = 0 ∧ s' = s) s := by
  obtain ⟨id, kids⟩ := t
  show wp drainSem (wrtIdxAt wrtData id []) _ s
  rcases List.eq_nil_or_concat' kids with rfl | ⟨init, last, rfl⟩
  · have hholds : Holds (s.zones id).idx 32 [] := h.2.1
    refine (wrtIdxAt_none h (Or.inl rfl)).mpr (wrtIdxLoop_nil h.1 ?_)
    rw [hholds.free 0 (Nat.le_refl _) (by omega)]
    exact wp_bind.mpr (wp_of_le drainSem_le (readZone_null (by omega) (wp_ret.mpr ⟨rfl, rfl⟩)))
  · have hidx : (s.zones id).idx init.length = last.id := by simpa using h.2.1.used init.length (by simp)
    refine drain_kids h (wrtIdxLoop_nil h.1 ?_)
    rw [hidx]
    exact wrtData_nil (h.2.2 last (by simp))

theorem wrtLevel_two_nil {init : List (FileTree 1)} {last : FileTree 1} (h : Rep (n := 2) s.zones (id, init ++ [last])) :
    wp drainSem (wrtLevel 2 id []) (fun r s' => r = 0 ∧ s' = s) s := by
  have hidx : (s.zones id).idx init.length = last.id := by simpa using h.2.1.used init.length (by simp)
  refine drain_kids h (wrtIdxLoop_nil h.1 ?_)
  rw [hidx]
  exact wrtLevel_one_nil (h.2.2 last (by simp))

theorem drain_readNull {Q : Option Zone → Store → Prop} (hid : id < 4) (h : wp drainSem (Fs.readZone id) Q s) : Q none s := by
  refine wp_ret.mp ((wp_op_eq fun o => ?_).mp h)
  show o = some (if id < 4 then none else some (s.zones id), s) ↔ _
  rw [if_pos hid]
  rfl

/-- A function that returns without a value may return any. -/
theorem drain_unset {Q : Int → Store → Prop} (v : Int) (h : wp drainSem Fs.unset Q s) : Q v s := by
  obtain ⟨r, t, heq, hr⟩ := wp_op.mp h (some (v, s)) ⟨v, rfl⟩
  cases heq
  exact wp_ret.mp hr

theorem wrtLevel_null {str : Str} {Q : Int → Store → Prop} (v : Int) (h : wp drainSem (wrtLevel (n + 1) 0 str) Q s) : Q v s :=
  drain_unset v (drain_readNull (by decide) (wp_bind.mp h))

/-- Without an entry, and without one to come, the recursive call for zone 0 returns no value. -/
theorem wrtLevel_two_unset {str : Str} {Q : Int → Store → Prop} (h : Rep (n := 2) s.zones (id, []))
    (hnone : str = [] ∨ s.free = 0) : ¬wp drainSem (wrtLevel 2 id str) Q s := by
  intro hwp
  have hholds : Holds (s.zones id).idx 32 [] := h.2.1
  have hloop := (wrtIdxAt_none (w := wrtLevel 1) h hnone).mp hwp
  have hat : strAt str 0 = some str := by simpa using strAt_eq (Nat.zero_le str.length)
  rw [wrtIdxLoop_eq, hholds.free 0 (Nat.le_refl _) (by omega), hat] at hloop
  -- The value may be -1, which is before the start of the string.
  have hcall := wp_ret.mp (wp_bind.mp hloop)
  have hrest := wrtLevel_null (-1) (wp_bind.mp hcall)
  have hshort : toShort (0 + -1) = -1 := by decide
  have hfault : strAt str (toShort (0 + -1)) = none := by
    rw [hshort]
    exact if_neg (by omega)
  dsimp only at hrest
  rw [hfault] at hrest
  exact wp_fault.mp (wp_bind.mp hrest)

end

/-! ## `wrt_idx` accounts for what it stores -/

/-- The result is the number of characters by which the content has grown, and the zones that were taken are the tree's. -/
def Accounts (s : Store) {n : Nat} (t : FileTree n) (str : Str) (r : Int) (s' : Store) : Prop :=
  ∃ (len : Nat) (t' : FileTree n) (new : List Int), r = len ∧ len ≤ str.length ∧ t'.id = t.id ∧ t'.Rep s'.zones ∧
    t'.text = t.text ++ str.take len ∧ s.Takes new s' ∧ ∀ z ∈ new, z ∈ t'.ids

/-- The free zones are enough, or the call puts no zone into its copy of the index zone, or puts the last one there and then
    writes the copy. -/
def Accountable (free : Nat) {n : Nat} (t : FileTree (n + 1)) (str : Str) : Prop :=
  match t.2.getLast? with
  | none => if n = 0 then t.need str.length ≤ free ∨ free = 0 else str ≠ [] ∧ t.need str.length ≤ free
  | some last => t.need str.length ≤ free ∨ free = 0 ∨ free = last.need str.length ∨
      (t.2.length = 31 ∧ free = last.need str.length + 1)

section
variable {n : Nat} {s s' : Store} {t t' : FileTree n} {str : Str} {len extra : Nat} {new lost : List Int} {r : Int}

theorem Gained.accounts (h : Gained s t str len s' t' new []) (hlen : len ≤ str.length) : Accounts s t str len s' := by
  have htakes := h.takes
  rw [List.append_nil] at htakes
  exact ⟨len, t', new, rfl, hlen, h.id, h.rep, h.text, htakes, fun z hz => h.ids.mem_iff.mpr (List.mem_append_right _ hz)⟩

theorem Short.lost_eq_nil (ht : t.Sound s) (h : Short s t str len extra s' t' new lost) (hacc : Accounts s t str r s') :
    lost = [] := by
  obtain ⟨len₂, t₂, new₂, -, -, hid, hrep, -, htakes, hmem⟩ := hacc
  obtain rfl : t₂ = t' := hrep.unique h.rep (hid.trans h.id.symm)
  refine List.eq_nil_iff_forall_not_mem.mpr fun z hz => ?_
  have hz' : z ∈ new ++ lost := List.mem_append_right _ hz
  have hst := h.takes.state z
  rw [if_pos hz', htakes.state z] at hst
  by_cases hnew : z ∈ new₂
  · rcases List.mem_append.mp (h.ids.mem_iff.mp (hmem z hnew)) with hold | hnew
    · exact h.takes.not_mem (ht.used z hold) hz'
    · exact (List.nodup_append.mp h.takes.nodup).2.2 z hnew z hz rfl
  · rw [if_neg hnew, (h.takes.free z hz').2] at hst
    exact absurd (Option.some.inj hst) (by decide)

/-- A call that leaves some of the string accounts for what it stores if nothing is lost. -/
theorem accounts_iff {p : FsM Int} {C : Prop} (ht : t.Sound s)
    (hp : wp drainSem p (fun r s' => ∃ (len extra : Nat) (t' : FileTree n) (new lost : List Int), r = (len + extra : Nat) ∧
      Short s t str len extra s' t' new lost ∧ (lost = [] ↔ C)) s) : wp drainSem p (Accounts s t str) s ↔ C := by
  constructor
  · intro hacc
    obtain ⟨r, s', ⟨len, extra, t', new, lost, -, hs, hlost⟩, hacc⟩ := drain_exists (wp_and hp hacc)
    exact hlost.mp (hs.lost_eq_nil ht hacc)
  · intro hC
    refine wp_mono hp ?_
    rintro r s' ⟨len, extra, t', new, lost, rfl, hs, hlost⟩
    obtain rfl := hlost.mpr hC
    have hlt := hs.lt
    rw [hs.counted rfl, Nat.add_zero]
    exact hs.toGained.accounts (by omega)

theorem accounts_of_room (ht : t.Sound s) (hne : str ≠ []) (hnul : NulFree str) (hshort : str.length < 2 ^ 15)
    (hroom : t.need str.length ≤ s.free) : wp drainSem (wrtLevel n t.id str) (Accounts s t str) s := by
  refine wp_mono (wp_of_le drainSem_le (wrtLevel_spec n s t str 0 (ht.writable hne hnul hshort hroom))) ?_
  rintro r s' ⟨len, t', new, rfl, hw, -⟩
  have hlen := hw.len_eq
  exact hw.gained.accounts (by omega)

theorem accounts_nil {p : FsM Int} (ht : t.Sound s) (hp : wp drainSem p (fun r s' => r = 0 ∧ s' = s) s) :
    wp drainSem p (Accounts s t []) s := by
  refine wp_mono hp ?_
  rintro r s' ⟨rfl, rfl⟩
  exact (Gained.refl ht).accounts (Nat.le_refl 0)

theorem need_zero (t : FileTree n) : t.need 0 = 0 := by
  induction n with
  | zero => rfl
  | succ n ih =>
    obtain ⟨id, kids⟩ := t
    rcases List.eq_nil_or_concat' kids with rfl | ⟨init, last, rfl⟩
    · rw [need_nil, needNew_zero]
    · rw [need_concat, ih, Nat.zero_sub, needNew_zero]

end

theorem wrtLevel_one_accounts {s : Store} {t : FileTree 1} {str : Str} (h : t.Sound s) (hnul : NulFree str)
    (hshort : str.length < 128) : wp drainSem (wrtLevel 1 t.id str) (Accounts s t str) s ↔ Accountable s.free t str := by
  have hcase : Accountable s.free t str ↔ t.need str.length ≤ s.free ∨ s.free = 0 := by
    obtain ⟨id, kids⟩ := t
    unfold Accountable
    rcases List.eq_nil_or_concat' kids with rfl | ⟨init, last, rfl⟩
    · exact Iff.rfl
    · have hlast : last.need str.length = 0 := rfl
      have hone : init.length = 30 → need (n := 1) (id, init ++ [last]) str.length ≤ 1 := fun h30 => by
        have hnew : needNew 0 (needBelow 0) 1 (str.length - last.room) ≤ 1 := by
          unfold needNew
          split
          · exact Nat.zero_le 1
          · exact Nat.le_refl 1
        rw [need_concat, h30]
        exact (Nat.zero_add _).le.trans hnew
      simp only [List.getLast?_concat, List.length_append, List.length_singleton, hlast]
      constructor
      · rintro (hroom | hfree | hfree | ⟨h31, hfree⟩)
        · exact Or.inl hroom
        · exact Or.inr hfree
        · exact Or.inr hfree
        · exact Or.inl (hfree ▸ hone (by omega))
      · rintro (hroom | hfree)
        · exact Or.inl hroom
        · exact Or.inr (Or.inl hfree)
  rw [hcase]
  by_cases hne : str = []
  · subst hne
    have hzero : t.need ([] : Str).length = 0 := need_zero t
    exact iff_of_true (accounts_nil h (wrtLevel_one_nil h.rep)) (Or.inl (by omega))
  by_cases hroom : t.need str.length ≤ s.free
  · exact iff_of_true (accounts_of_room h hne hnul (by omega) hroom) (Or.inl hroom)
  · rw [or_iff_right hroom]
    refine accounts_iff h (wp_mono (wrtLevel_one_short h hne hnul (by omega) (by omega)) ?_)
    rintro r s' ⟨len, extra, t', lost, rfl, hs⟩
    refine ⟨len, extra, t', [], lost, rfl, hs, ?_⟩
    have hadd := hs.toGained.free_add
    have hfull := hs.full
    rw [← List.length_eq_zero_iff]
    rw [List.length_nil] at hadd
    omega

theorem wrtLevel_two_accounts {s : Store} {t : FileTree 2} {str : Str} (h : t.Sound s) (hnul : NulFree str)
    (hshort : str.length < 128) : wp drainSem (wrtLevel 2 t.id str) (Accounts s t str) s ↔ Accountable s.free t str := by
  obtain ⟨id, kids⟩ := t
  unfold Accountable
  rcases List.eq_nil_or_concat' kids with rfl | ⟨init, last, rfl⟩
  · show wp drainSem (wrtLevel 2 id str) _ s ↔ str ≠ [] ∧ need (n := 2) (id, []) str.length ≤ s.free
    by_cases hnone : str = [] ∨ s.free = 0
    · refine iff_of_false (wrtLevel_two_unset h.rep hnone) fun ⟨hne, hroom⟩ => ?_
      have hpos := List.length_pos_of_ne_nil hne
      have hzero := hnone.resolve_left hne
      rw [need_nil, needNew_succ (m := 31) (by omega)] at hroom
      omega
    · obtain ⟨hne, hfree⟩ := not_or.mp hnone
      rw [and_iff_right hne]
      by_cases hroom : need (n := 2) (id, []) str.length ≤ s.free
      · exact iff_of_true (accounts_of_room h hne hnul (by omega) hroom) hroom
      · rw [iff_false_intro hroom]
        exact accounts_iff h (wrtLevel_two_first h hne hnul hshort hfree (by omega))
  · simp only [List.getLast?_concat, List.length_append, List.length_singleton]
    by_cases hne : str = []
    · subst hne
      have hzero : need (n := 2) (id, init ++ [last]) ([] : Str).length = 0 := need_zero _
      exact iff_of_true (accounts_nil h (wrtLevel_two_nil h.rep)) (Or.inl (by omega))
    by_cases hroom : need (n := 2) (id, init ++ [last]) str.length ≤ s.free
    · exact iff_of_true (accounts_of_room h hne hnul (by omega) hroom) (Or.inl hroom)
    · rw [or_iff_right hroom]
      have hlen : init.length + 1 = 31 ↔ init.length = 30 := by omega
      rw [hlen]
      exact accounts_iff h (wrtLevel_two_short h hne hnul hshort (Nat.lt_of_not_le hroom))

/-- `wrt_idx` accounts for what it stores exactly when the zones are enough or none is lost. -/
theorem wrtIdx_accounts_iff (s : Store) (flag : Bool) (t : FileTree (flag.toNat + 1)) (str : Str) (h : t.Sound s)
    (hnul : NulFree str) (hshort : str.length < 128) :
    wp drainSem (wrtIdx t.id str flag) (Accounts s t str) s ↔ Accountable s.free t str := by
  cases flag with
  | false => exact wrtLevel_one_accounts h hnul hshort
  | true => exact wrtLevel_two_accounts h hnul hshort

/-- A disk with one free zone, zone 6. -/
def lastZone : Store where
  map := (setState fullDisk.map 6 unoccupied).getD .zero
  zones _ := .zero

theorem lastZone_free : lastZone.free = 1 := by decide +kernel

theorem lastZone_sound (n : Nat) : (FileTree.new n 5).Sound lastZone :=
  sound_new (by decide) rfl ⟨iOccupied, by decide +kernel, by decide⟩

theorem wrtIdx_accounts_iff_hi :
    wp drainSem (wrtIdx 5 (lit "hi") false) (Accounts lastZone (n := 1) (5, []) (lit "hi")) lastZone :=
  (wrtIdx_accounts_iff lastZone false (5, []) (lit "hi") (lastZone_sound 1) (by decide) (by decide)).mpr
    (Or.inl (by rw [lastZone_free]; decide))

/-- 64 characters for an empty index zone and one free zone: 63 are counted, and the zone that holds them is lost. -/
theorem wrtIdx_loses : ¬∀ (s : Store) (flag : Bool) (t : FileTree (flag.toNat + 1)) (str : Str), t.Sound s → NulFree str →
    str.length < 128 → wp drainSem (wrtIdx t.id str flag) (Accounts s t str) s := by
  intro hall
  have hnul : NulFree (List.replicate 64 97) := by decide
  have hacc := (wrtLevel_one_accounts (lastZone_sound 1) hnul (by decide)).mp
    (hall lastZone false (5, []) _ (lastZone_sound 1) hnul (by decide))
  have hneed : need (FileTree.new 1 5) 64 = 2 := by decide
  rcases hacc with hroom | hzero
  · rw [List.length_replicate, hneed, lastZone_free] at hroom
    omega
  · rw [lastZone_free] at hzero
    omega

end MiniFs
