import MiniFs.Store

/-! # Zone states

`get_state` reads back what `set_state` stores and nothing else changes, so the bitmap is used as a function
from ids to states; `get_free_id` hands out a zone that was free. -/

namespace MiniFs
open Interact Memory

/-- A two-bit state. -/
abbrev IsState (b : Byte) : Prop := b.toNat < 4

theorem isState_unoccupied : IsState unoccupied := by decide
theorem isState_dOccupied : IsState dOccupied := by decide
theorem isState_fOccupied : IsState fOccupied := by decide
theorem isState_iOccupied : IsState iOccupied := by decide

/-- The ids of the zones fit into a `signed short`, and the last id that `get_free_id` looks at has no zone. -/
class Sized (n : Nat) : Prop where
  pos : 0 < n
  lt : n < 8192

instance : Sized 256 := ⟨by decide, by decide⟩

/-- Two-bit fields of a byte are independent. -/
theorem cell_spec : ∀ n < 256, ∀ m < 4, ∀ o < 4, ∀ o' < 4,
    (UInt8.ofNat n &&& ~~~(3 <<< UInt8.ofNat (2 * o)) ||| (UInt8.ofNat m &&& 3) <<< UInt8.ofNat (2 * o)) >>>
        UInt8.ofNat (2 * o') &&& 3 =
      if o' = o then UInt8.ofNat m else UInt8.ofNat n >>> UInt8.ofNat (2 * o') &&& 3 := by
  intro n _ m hm o ho o' ho'
  have hkeep : ∀ o < 4, ∀ o' < 4,
      (~~~(3 <<< UInt8.ofNat (2 * o)) : UInt8) >>> UInt8.ofNat (2 * o') &&& 3 = if o' = o then 0 else 3 := by decide
  have hset : ∀ m < 4, ∀ o < 4, ∀ o' < 4, ((UInt8.ofNat m &&& 3) <<< UInt8.ofNat (2 * o)) >>> UInt8.ofNat (2 * o') &&& 3 =
      if o' = o then UInt8.ofNat m else 0 := by decide
  have hdist : ∀ a b c : UInt8, (a ||| b) &&& c = a &&& c ||| b &&& c := fun a b c =>
    UInt8.toBitVec_inj.mp BitVec.and_or_distrib_right
  rw [UInt8.shiftRight_or, UInt8.shiftRight_and, hdist, UInt8.and_assoc, hkeep o ho o' ho', hset m hm o ho o' ho']
  split
  · rw [UInt8.and_zero, UInt8.zero_or]
  · rw [UInt8.or_zero]

section
variable {n : Nat} {map : Bitmap n} {id : Int} {b : Byte}

theorem getState_of_lt (h : id < 4) : getState map id = some fOccupied := if_pos h

theorem lt_of_getState [hn : Sized n] (h : getState map id = some b) : id < 4 * n := by
  have := hn.pos
  unfold getState at h
  split at h
  · omega
  · split at h
    · omega
    · cases h

theorem getState_isSome (h : id < 4 * n) : ∃ b, getState map id = some b := by
  unfold getState
  by_cases h4 : id < 4
  · exact ⟨_, if_pos h4⟩
  · rw [if_neg h4, if_pos (by omega)]
    exact ⟨_, rfl⟩

theorem getState_of_le (h4 : 4 ≤ id) (h : id < 4 * n) :
    getState map id = some (map.get (id.toNat / 4) >>> bitOff id &&& 3) := by
  unfold getState
  rw [if_neg (by omega), if_pos (by omega)]

theorem getState_of_ge (h4 : 4 ≤ id) (h : 4 * n ≤ id) : getState map id = none := by
  unfold getState
  rw [if_neg (by omega), if_neg (by omega)]

/-- The state of a zone after `set_state`. -/
theorem setState_spec (h4 : 4 ≤ id) (h : id < 4 * n) (hb : IsState b) :
    ∃ m, setState map id b = some m ∧ ∀ z, getState m z = if z = id then some b else getState map z := by
  refine ⟨_, by rw [setState, if_neg (by omega), if_pos (by omega)], fun z => ?_⟩
  by_cases hz4 : 4 ≤ z
  · by_cases hz : z < 4 * n
    · rw [getState_of_le hz4 hz, getState_of_le hz4 hz]
      by_cases hcell : z.toNat / 4 = id.toNat / 4
      · have hspec := cell_spec (map.get (id.toNat / 4)).toNat (UInt8.toNat_lt _) b.toNat hb (id.toNat % 4)
          (Nat.mod_lt _ (by omega)) (z.toNat % 4) (Nat.mod_lt _ (by omega))
        rw [UInt8.ofNat_toNat, UInt8.ofNat_toNat] at hspec
        rw [hcell, Bytes.get_blit_of_mem (Nat.le_refl _) (by simp) (by omega), Nat.sub_self]
        refine (congrArg some hspec).trans ?_
        by_cases hid : z = id
        · rw [if_pos hid, if_pos (by rw [hid])]
        · rw [if_neg hid, if_neg (by omega)]
          rfl
      · have hid : z ≠ id := by rintro rfl; exact hcell rfl
        rw [if_neg hid, Bytes.get_blit_of_disjoint (by simp; omega)]
    · have hid : z ≠ id := by omega
      rw [getState_of_ge hz4 (by omega), getState_of_ge hz4 (by omega), if_neg hid]
  · rw [getState_of_lt (by omega), getState_of_lt (by omega), if_neg (by omega)]

/-- The loop of `get_free_id` stops at the first free zone, or runs off the bitmap. -/
theorem getFreeIdFrom_spec {fuel id : Nat} (h4 : 4 ≤ id) (hid : id ≤ 4 * n) (hf : 4 * n < id + fuel) :
    (∃ i : Nat, id ≤ i ∧ i < 4 * n ∧ getState map i = some unoccupied ∧
        (∀ j : Nat, id ≤ j → j < i → getState map j ≠ some unoccupied) ∧
        getFreeIdFrom map b fuel id = (setState map i b).map fun m => ((i : Int), m)) ∨
      (getFreeIdFrom map b fuel id = none ∧ ∀ i : Nat, id ≤ i → getState map i ≠ some unoccupied) := by
  induction fuel generalizing id with
  | zero => omega
  | succ fuel ih =>
    by_cases hlt : id < 4 * n
    · obtain ⟨st, hst⟩ := @getState_isSome n map id (by omega)
      by_cases hfree : st = unoccupied
      · refine Or.inl ⟨id, Nat.le_refl _, hlt, by rw [hst, hfree], fun j hj hlt => by omega, ?_⟩
        unfold getFreeIdFrom
        rw [hst]
        simp only [Option.bind_eq_bind, Option.bind_some, if_pos hfree]
        cases setState map id b <;> rfl
      · have hstep : getFreeIdFrom map b (fuel + 1) id = getFreeIdFrom map b fuel (id + 1) := by
          rw [getFreeIdFrom, hst]
          simp only [Option.bind_eq_bind, Option.bind_some, if_neg hfree]
        have hused : getState map id ≠ some unoccupied := by
          rw [hst]
          exact fun h => hfree (Option.some.inj h)
        rw [hstep]
        rcases @ih (id + 1) (by omega) (by omega) (by omega) with ⟨i, hi, hi', hs, hmin, heq⟩ | ⟨hnone, hall⟩
        · refine Or.inl ⟨i, by omega, hi', hs, fun j hj hlt => ?_, heq⟩
          rcases Nat.eq_or_lt_of_le hj with rfl | hj
          · exact hused
          · exact hmin j hj hlt
        · refine Or.inr ⟨hnone, fun i hi => ?_⟩
          rcases Nat.eq_or_lt_of_le hi with rfl | hi
          · exact hused
          · exact hall i hi
    · refine Or.inr ⟨?_, fun i hi => ?_⟩
      · unfold getFreeIdFrom
        rw [getState_of_ge (by omega) (by omega)]
        rfl
      · rw [getState_of_ge (by omega) (by omega)]
        exact nofun

/-- `get_free_id` stays inside the bitmap. If a zone is free it hands out the one with the smallest id and marks it, and
    if none is it returns -1 and changes nothing. -/
def FreeIdRight (map : Bitmap) (b : Byte) : Prop :=
  ∃ (id : Int) (map' : Bitmap), getFreeId map b = some (id, map') ∧
    ((∃ i : Int, 4 ≤ i ∧ i < 1024 ∧ getState map i = some unoccupied) →
      (4 ≤ id ∧ id < 1024 ∧ getState map id = some unoccupied) ∧
      (∀ j : Int, 4 ≤ j → j < id → getState map j ≠ some unoccupied) ∧
      ∀ z, getState map' z = if z = id then some b else getState map z) ∧
    ((¬∃ i : Int, 4 ≤ i ∧ i < 1024 ∧ getState map i = some unoccupied) → id = -1 ∧ map' = map)

theorem freeIdRight_iff_free {map : Bitmap} (hb : IsState b) :
    FreeIdRight map b ↔ ∃ i : Int, 4 ≤ i ∧ i < 1024 ∧ getState map i = some unoccupied := by
  rcases @getFreeIdFrom_spec 256 map b 32764 4 (by omega) (by omega) (by omega) with ⟨i, hi, hlt, hst, hmin, heq⟩ |
    ⟨hnone, hall⟩
  · have hfree : ∃ i : Int, 4 ≤ i ∧ i < 1024 ∧ getState map i = some unoccupied := ⟨i, by omega, by omega, hst⟩
    obtain ⟨m, hm, hstate⟩ := @setState_spec 256 map i b (by omega) (by omega) hb
    refine ⟨fun _ => hfree, fun _ => ⟨i, m, by rw [getFreeId, heq, hm]; rfl, fun _ =>
      ⟨⟨by omega, by omega, hst⟩, ?_, hstate⟩, ?_⟩⟩
    · intro j h4 hj
      have hcast : ((j.toNat : Nat) : Int) = j := by omega
      have := hmin j.toNat (by omega) (by omega)
      rwa [hcast] at this
    · exact fun hno => absurd hfree hno
  · constructor
    · rintro ⟨id, map', heq, -⟩
      rw [getFreeId, hnone] at heq
      cases heq
    · rintro ⟨i, h4, -, hst⟩
      have hcast : ((i.toNat : Nat) : Int) = i := by omega
      exact absurd (by rwa [hcast]) (hall i.toNat (by omega))

/-- `get_free_id` does what it should exactly when there is a free zone. -/
theorem freeIdRight_iff (map : Bitmap) (b : Byte) (hb : IsState b) :
    FreeIdRight map b ↔ ∃ i : Int, 4 ≤ i ∧ i < 1024 ∧ getState map i = some unoccupied := freeIdRight_iff_free hb

theorem freeIdRight_iff_zero : FreeIdRight .zero fOccupied :=
  (freeIdRight_iff .zero fOccupied (by decide)).mpr ⟨4, by omega, by omega, by decide +kernel⟩

/-- Every zone of this bitmap is in use. -/
theorem getState_filled (h : id < 4 * n) : getState (fun _ => 170 : Bitmap n) id = some fOccupied := by
  by_cases h4 : id < 4
  · exact getState_of_lt h4
  have hcell : ∀ o < 4, (170 : Byte) >>> UInt8.ofNat (2 * o) &&& 3 = fOccupied := by decide
  have hget : Bytes.get (fun _ => 170 : Bitmap n) (id.toNat / 4) = 170 := dif_pos (by omega)
  rw [getState_of_le (by omega) h, hget]
  exact congrArg some (hcell _ (Nat.mod_lt _ (by omega)))

/-- With no free zone the scan goes on past the bitmap. -/
theorem getFreeId_full : ¬∀ (map : Bitmap) (b : Byte), IsState b → b ≠ unoccupied → FreeIdRight map b := by
  intro hall
  obtain ⟨i, h4, hlt, hst⟩ := (freeIdRight_iff_free isState_fOccupied).mp
    (hall (fun _ => 170) fOccupied (by decide) (by decide))
  rw [getState_filled (by omega)] at hst
  exact absurd hst (by decide)

/-! ## Cells -/

/-- The two bits that `map` keeps for a zone. -/
def cell (map : Bitmap n) (id : Nat) : Byte := UInt8.ofNat ((map.get (id / 4)).toNat / 4 ^ (id % 4) % 4)

theorem shiftRight_and_three : ∀ v < 256, ∀ o < 4,
    UInt8.ofNat v >>> UInt8.ofNat (2 * o) &&& 3 = UInt8.ofNat (v / 4 ^ o % 4) := by decide +kernel

/-- `get_state` reads the zone's cell. -/
theorem getState_cell (h4 : 4 ≤ id) (h : id < 4 * n) : getState map id = some (cell map id.toNat) := by
  have hcell := shiftRight_and_three (map.get (id.toNat / 4)).toNat (UInt8.toNat_lt _) (id.toNat % 4)
    (Nat.mod_lt _ (by omega))
  rw [UInt8.ofNat_toNat] at hcell
  rw [getState_of_le h4 h]
  exact congrArg some hcell

/-- A call that writes a zone's state. -/
inductive StateCall where
  | setState (zone : Int) (state : Byte)
  | setFreeId (zone : Int)

namespace StateCall

def run (map : Bitmap n) : StateCall → Option (Bitmap n)
  | setState z state => MiniFs.setState map z state
  | setFreeId z => MiniFs.setFreeId map z

def zone : StateCall → Int
  | setState z _ => z
  | setFreeId z => z

def state : StateCall → Byte
  | setState _ state => state
  | setFreeId _ => unoccupied

theorem run_eq (x : StateCall) : x.run map = MiniFs.setState map x.zone x.state := by
  cases x with
  | setState z state => rfl
  | setFreeId z =>
    show MiniFs.setFreeId map z = MiniFs.setState map z unoccupied
    unfold MiniFs.setFreeId
    split
    · rfl
    · exact (if_pos (by omega)).symm

end StateCall

/-- `set_state` looks at two bits of the state. -/
theorem setState_and_three : setState map id b = setState map id (b &&& 3) := by
  unfold setState
  rw [UInt8.and_assoc, UInt8.and_self]

theorem isState_and_three : IsState (b &&& 3) := by
  show (b &&& 3).toNat < 4
  rw [UInt8.toNat_and]
  exact Nat.lt_of_le_of_lt Nat.and_le_right (by decide)

/-- What one call does to the states and to the first byte, in which the ids below 4 have their cells. -/
theorem StateCall.run_spec (x : StateCall) (hx : x.zone < 4 * n) :
    ∃ m, x.run map = some m ∧ m.get 0 = map.get 0 ∧
      ∀ z : Int, 4 ≤ z → getState m z = if x.zone = z then some (x.state &&& 3) else getState map z := by
  rw [x.run_eq]
  by_cases h4 : 4 ≤ x.zone
  · obtain ⟨m, hm, hstate⟩ := @setState_spec n map x.zone (x.state &&& 3) h4 hx isState_and_three
    refine ⟨m, setState_and_three.trans hm, ?_, fun z _ => ?_⟩
    · rw [MiniFs.setState, if_neg (by omega), if_pos (by omega)] at hm
      rw [← Option.some.inj hm, Bytes.get_blit_of_disjoint (Or.inl (by omega))]
    · simp only [hstate, eq_comm]
  · refine ⟨map, if_pos (by omega), rfl, fun z hz => ?_⟩
    rw [if_neg (by omega)]

/-- The last state that the calls write to a zone, if one does. -/
def lastState (z : Int) (xs : List StateCall) : Option Byte := ((xs.filter (·.zone = z)).getLast?).map (·.state)

theorem lastState_cons {z : Int} {x : StateCall} {xs : List StateCall} :
    lastState z (x :: xs) = (lastState z xs).or (if x.zone = z then some x.state else none) := by
  unfold lastState
  by_cases h : x.zone = z
  · rw [List.filter_cons_of_pos (by simpa using h), List.getLast?_cons, if_pos h]
    cases (xs.filter (·.zone = z)).getLast? <;> rfl
  · rw [List.filter_cons_of_neg (by simpa using h), if_neg h, Option.or_none]

/-- Any calls, in any order. -/
theorem runStateCalls_spec {xs : List StateCall} (hxs : ∀ x ∈ xs, x.zone < 4 * n) :
    ∃ m, xs.foldlM StateCall.run map = some m ∧ m.get 0 = map.get 0 ∧
      ∀ z : Int, 4 ≤ z → getState m z = ((lastState z xs).map (· &&& 3)).or (getState map z) := by
  induction xs generalizing map with
  | nil => exact ⟨map, rfl, rfl, fun _ _ => rfl⟩
  | cons x xs ih =>
    obtain ⟨m, hm, hzero, hstate⟩ := @StateCall.run_spec n map x (hxs x List.mem_cons_self)
    obtain ⟨m', hm', hzero', hstate'⟩ := @ih m fun y hy => hxs y (List.mem_cons_of_mem _ hy)
    refine ⟨m', by rw [List.foldlM_cons, hm]; exact hm', hzero'.trans hzero, fun z hz => ?_⟩
    rw [hstate' z hz, hstate z hz, lastState_cons]
    cases lastState z xs with
    | some b => rfl
    | none =>
      by_cases h : x.zone = z
      · simp [h]
      · simp [h]

/-- The bitmap is an array of cells: each keeps the low two bits of what is written to it last, and those below 4 cannot be
    written and read as occupied. -/
theorem stateCalls_cells (map : Bitmap) (xs : List StateCall) (hxs : ∀ x ∈ xs, x.zone < 1024) :
    ∃ m, xs.foldlM StateCall.run map = some m ∧
      (∀ id : Nat, 4 ≤ id → id < 1024 →
        getState m id = some (((lastState id xs).map (· &&& 3)).getD (cell map id))) ∧
      (∀ id : Int, id < 4 → getState m id = some fOccupied) ∧ ∀ id : Nat, id < 4 → cell m id = cell map id := by
  obtain ⟨m, hm, hzero, hstate⟩ := @runStateCalls_spec 256 map xs (fun x hx => by have := hxs x hx; omega)
  refine ⟨m, hm, fun id h4 hlt => ?_, fun id h => getState_of_lt h, fun id h4 => ?_⟩
  · rw [hstate id (by omega), @getState_cell 256 map id (by omega) (by omega)]
    cases lastState id xs <;> rfl
  · unfold cell
    rw [Nat.div_eq_of_lt h4, hzero]

theorem stateCalls_cells_three :
    ∃ m, [StateCall.setState 5 255, .setFreeId 3, .setFreeId 6].foldlM StateCall.run (.zero : Bitmap) = some m ∧
      (∀ id : Nat, 4 ≤ id → id < 1024 → getState m id =
        some (((lastState id [.setState 5 255, .setFreeId 3, .setFreeId 6]).map (· &&& 3)).getD (cell (.zero : Bitmap) id))) ∧
      (∀ id : Int, id < 4 → getState m id = some fOccupied) ∧ ∀ id : Nat, id < 4 → cell m id = cell (.zero : Bitmap) id :=
  stateCalls_cells .zero _ (by decide)

end

namespace Store
variable {n : Nat} {s s' : Store n} {id : Int} {b : Byte}

theorem lt_zones [Sized n] (h : s.state id = some b) : id < 4 * n := lt_of_getState h

theorem lt_of_state {s : Store} (h : s.state id = some b) : id < 1024 := by
  have := lt_of_getState h
  omega

theorem state_of_lt (h : id < 4) : s.state id = some fOccupied := getState_of_lt h

theorem le_of_state (h : s.state id = some b) (hb : b ≠ fOccupied) : 4 ≤ id := by
  by_contra hlt
  rw [state_of_lt (by omega)] at h
  exact hb (Option.some.inj h).symm

/-- Zone `id` changes its state to `b`, and nothing else changes. -/
structure SetState {n : Nat} (s : Store n) (id : Int) (b : Byte) (s' : Store n) : Prop where
  zones : s'.zones = s.zones
  state : ∀ z, s'.state z = if z = id then some b else s.state z

theorem SetState.free [Sized n] (h : SetState s id b s') (h4 : 4 ≤ id) (hs : s.state id = some unoccupied)
    (hb : b ≠ unoccupied) : s'.free + 1 = s.free := by
  have hlt := lt_zones hs
  have hmem : id.toNat ∈ (Finset.range (4 * n)).filter fun i : Nat => 4 ≤ i ∧ s.state i = some unoccupied := by
    simp only [Finset.mem_filter, Finset.mem_range]
    have hcast : ((id.toNat : Nat) : Int) = id := by omega
    exact ⟨by omega, by omega, by rw [hcast]; exact hs⟩
  have herase : ((Finset.range (4 * n)).filter fun i : Nat => 4 ≤ i ∧ s'.state i = some unoccupied) =
      ((Finset.range (4 * n)).filter fun i : Nat => 4 ≤ i ∧ s.state i = some unoccupied).erase id.toNat := by
    ext i
    simp only [Finset.mem_filter, Finset.mem_range, Finset.mem_erase]
    by_cases hi : i = id.toNat
    · have hcast : ((i : Nat) : Int) = id := by omega
      have hne : s'.state i ≠ some unoccupied := by
        rw [h.state, if_pos hcast]
        exact fun heq => hb (Option.some.inj heq)
      exact ⟨fun hi' => absurd hi'.2.2 hne, fun hi' => absurd hi hi'.1⟩
    · have hcast : ¬((i : Nat) : Int) = id := by omega
      rw [h.state, if_neg hcast]
      exact ⟨fun hi' => ⟨hi, hi'⟩, fun hi' => hi'.2⟩
  unfold Store.free
  rw [herase, Finset.card_erase_add_one hmem]

theorem Room.mono {P : Policy} {j k : Nat} (h : s.Room P k) (hjk : j ≤ k) : s.Room P j :=
  h.imp_right hjk.trans

end Store

section
variable {n : Nat} {P : Policy} {s : Store n} {b : Byte}

/-- The free zone that `get_free_id` hands out. -/
structure Store.First (s : Store n) (id : Int) : Prop where
  le : 4 ≤ id
  free : s.state id = some unoccupied
  least : ∀ j, 4 ≤ j → j < id → s.state j ≠ some unoccupied

theorem Store.First.unique {s' : Store n} {id id' : Int} (h : s.First id) (h' : s'.First id')
    (hstate : ∀ z, s'.state z = s.state z) : id = id' := by
  rcases Int.lt_trichotomy id id' with hlt | heq | hgt
  · exact absurd ((hstate id).trans h.free) (h'.least id h.le hlt)
  · exact heq
  · exact absurd ((hstate id').symm.trans h'.free) (h.least id' h'.le hgt)

theorem getFreeId_first [hn : Sized n] {k : Nat} {Q : Int → Store n → Prop} (hb : IsState b) (hb0 : b ≠ unoccupied)
    (hroom : s.Room P (k + 1))
    (h : ∀ (id : Int) s', s.First id → id < 4 * n → s.SetState id b s' → s'.Room P k → Q id s') :
    wp (storeSem P) (Fs.getFreeId b) Q s := by
  refine wp_op.mpr ?_
  rintro o ⟨ho, hnone⟩
  have hlt := hn.lt
  have hpos := hn.pos
  rcases @getFreeIdFrom_spec n s.map b 32764 4 (by omega) (by omega) (by omega) with
    ⟨i, hi, hi', hst, hmin, heq⟩ | ⟨hfail, hall⟩
  · obtain ⟨m, hm, hstate⟩ := @setState_spec n s.map i b (by omega) (by omega) hb
    rw [getFreeId, heq, hm] at ho
    have hset : s.SetState i b { s with map := m } := ⟨rfl, hstate⟩
    have hfirst : s.First i := ⟨by omega, hst, fun j hj hji => by
      obtain ⟨j, rfl⟩ := Int.eq_ofNat_of_zero_le (by omega : 0 ≤ j)
      exact hmin j (by omega) (by omega)⟩
    refine ⟨(i : Int), { s with map := m }, ho, wp_ret.mpr (h i _ hfirst (by omega) hset ?_)⟩
    rcases hroom with hr | hr
    · exact Or.inl hr
    · have := hset.free (by omega) hst hb0
      exact Or.inr (by omega)
  · -- The bitmap is full: such a run is left out, or there was room.
    rw [getFreeId, hfail] at ho
    rcases hroom with hr | hr
    · exact absurd ho (hnone hr)
    · have hzero : s.free = 0 := by
        unfold Store.free
        rw [Finset.card_eq_zero, Finset.filter_eq_empty_iff]
        rintro i - ⟨h4, hst⟩
        exact hall i (by omega) hst
      omega

/-- `get_free_id` hands out a free zone and marks it. -/
theorem getFreeId_spec [hn : Sized n] {k : Nat} {Q : Int → Store n → Prop} (hb : IsState b) (hb0 : b ≠ unoccupied)
    (hroom : s.Room P (k + 1))
    (h : ∀ (id : Int) s', 4 ≤ id → id < 4 * n → s.state id = some unoccupied → s.SetState id b s' → s'.Room P k → Q id s') :
    wp (storeSem P) (Fs.getFreeId b) Q s :=
  getFreeId_first hb hb0 hroom fun id s' hfirst hlt hset hroom' => h id s' hfirst.le hlt hfirst.free hset hroom'

theorem setFreeId_spec {id : Int} {Q : Unit → Store n → Prop} (h4 : 4 ≤ id) (hlt : id < 4 * n)
    (h : ∀ s', s.SetState id unoccupied s' → Q () s') : wp (storeSem P) (Fs.setFreeId id) Q s := by
  obtain ⟨m, hm, hstate⟩ := @setState_spec n s.map id _ h4 hlt isState_unoccupied
  have hset : s.SetState id unoccupied { s with map := m } := ⟨rfl, hstate⟩
  refine (wp_op_eq fun o => ?_).mpr (wp_ret.mpr (h _ hset))
  show o = (setFreeId s.map id).map _ ↔ _
  rw [setFreeId, if_pos h4, hm]
  rfl

/-- `set_free_id` reports an id below 4 and does nothing. -/
theorem setFreeId_null {id : Int} {Q : Unit → Store n → Prop} (h4 : id < 4) (h : Q () s) :
    wp (storeSem P) (Fs.setFreeId id) Q s := by
  refine (wp_op_eq fun o => ?_).mpr (wp_ret.mpr h)
  show o = (setFreeId s.map id).map _ ↔ _
  rw [setFreeId, if_neg (by omega)]
  rfl

end

end MiniFs
