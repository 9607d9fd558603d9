import MiniFs.Theorems.Slots

/-! # The zones of a file

A data zone, an index zone of data zones and an index zone of index zones are trees of level 0, 1 and 2. The
append functions of fs_lib.c are one function at each level: `wrtLevel`. Its specification is proved level
by level, over the number of entries that are left. -/

namespace MiniFs
open Interact Memory

/-- A data zone with its text, or an index zone with the trees that its entries refer to. -/
@[reducible] def FileTree : Nat → Type
  | 0 => Int × Str
  | n + 1 => Int × List (FileTree n)

namespace FileTree

def id : {n : Nat} → FileTree n → Int
  | 0, (id, _) => id
  | _ + 1, (id, _) => id

/-- The texts of the data zones, one after the other. -/
def text : {n : Nat} → FileTree n → Str
  | 0, (_, text) => text
  | _ + 1, (_, kids) => kids.flatMap text

/-- The zones of the tree, its own first. -/
def ids : {n : Nat} → FileTree n → List Int
  | 0, (id, _) => [id]
  | _ + 1, (id, kids) => id :: kids.flatMap ids

/-- A zone that was just allocated. -/
def new : (n : Nat) → Int → FileTree n
  | 0, id => (id, [])
  | _ + 1, id => (id, [])

/-- The tree is on the disk. -/
def Rep (zones : Int → Zone) : {n : Nat} → FileTree n → Prop
  | 0, (id, text) => 4 ≤ id ∧ (zones id).HasStr 0 text
  | _ + 1, (id, kids) => 4 ≤ id ∧ Holds (zones id).idx 32 (kids.map FileTree.id) ∧ ∀ k ∈ kids, Rep zones k

instance decidableRep (zones : Int → Zone) : {n : Nat} → (t : FileTree n) → Decidable (t.Rep zones)
  | 0, (id, text) => inferInstanceAs (Decidable (4 ≤ id ∧ (zones id).HasStr 0 text))
  | n + 1, (id, kids) =>
    have : DecidablePred fun k : FileTree n => k.Rep zones := fun k => decidableRep zones k
    inferInstanceAs (Decidable (4 ≤ id ∧ Holds (zones id).idx 32 (kids.map FileTree.id) ∧ ∀ k ∈ kids, Rep zones k))

/-- The index zones of the tree are on the disk, whatever its data zones hold. -/
def Refs (zones : Int → Zone) : {n : Nat} → FileTree n → Prop
  | 0, (id, _) => 4 ≤ id
  | _ + 1, (id, kids) => 4 ≤ id ∧ Holds (zones id).idx 32 (kids.map FileTree.id) ∧ ∀ k ∈ kids, Refs zones k

instance decidableRefs (zones : Int → Zone) : {n : Nat} → (t : FileTree n) → Decidable (t.Refs zones)
  | 0, (id, _) => inferInstanceAs (Decidable (4 ≤ id))
  | n + 1, (id, kids) =>
    have : DecidablePred fun k : FileTree n => k.Refs zones := fun k => decidableRefs zones k
    inferInstanceAs (Decidable (4 ≤ id ∧ Holds (zones id).idx 32 (kids.map FileTree.id) ∧ ∀ k ∈ kids, Refs zones k))

/-- Every index zone has 32 entries. -/
def Wide : {n : Nat} → FileTree n → Prop
  | 0, _ => True
  | _ + 1, (_, kids) => kids.length = 32 ∧ ∀ k ∈ kids, Wide k

/-- Every data zone holds 63 characters and every index zone 32 entries. -/
def Full : {n : Nat} → FileTree n → Prop
  | 0, (_, text) => text.length = 63
  | _ + 1, (_, kids) => kids.length = 32 ∧ ∀ k ∈ kids, Full k

/-- All before the last data zone is full, except that the last index zones may be empty. -/
def Ready : {n : Nat} → FileTree n → Prop
  | 0, _ => True
  | _ + 1, (_, kids) => (∀ k ∈ kids.dropLast, Full k) ∧ ∀ k ∈ kids.getLast?, Ready k

/-- All before the last data zone is full, and no index zone is empty. -/
def Packed : {n : Nat} → FileTree n → Prop
  | 0, _ => True
  | _ + 1, (_, kids) => kids ≠ [] ∧ (∀ k ∈ kids.dropLast, Full k) ∧ ∀ k ∈ kids.getLast?, Packed k

/-- The zones from the tree's own to its last data zone. -/
def lastPath : {n : Nat} → FileTree n → List Int
  | 0, (id, _) => [id]
  | _ + 1, (id, kids) => id :: (kids.getLast?.map lastPath).getD []

/-- The characters that a full tree holds. -/
def cap (n : Nat) : Nat := 63 * 32 ^ n

/-- The characters that a tree can still take. -/
def room : {n : Nat} → FileTree n → Nat
  | 0, (_, text) => 63 - text.length
  | n + 1, (_, kids) => (kids.getLast?.map room).getD 0 + (32 - kids.length) * cap n

/-- The zones that `slots` new trees take for `chars` characters, where `below` is what one takes beside its
    own zone. -/
def needNew (n : Nat) (below : Nat → Nat) : (slots : Nat) → (chars : Nat) → Nat
  | 0, _ => 0
  | slots + 1, chars => if chars = 0 then 0 else 1 + below chars + needNew n below slots (chars - cap n)

/-- The zones that a tree that was just allocated takes for `chars` characters, beside its own. -/
def needBelow : (n : Nat) → (chars : Nat) → Nat
  | 0, _ => 0
  | n + 1, chars => needNew n (needBelow n) 32 chars

/-- The zones that a tree takes for `chars` more characters. -/
def need : {n : Nat} → FileTree n → (chars : Nat) → Nat
  | 0, _, _ => 0
  | n + 1, (_, kids), chars =>
    (kids.getLast?.map fun k => need k chars).getD 0 +
      needNew n (needBelow n) (32 - kids.length) (chars - (kids.getLast?.map room).getD 0)

/-- The zones that new trees at the entries from `i` on take for `chars` characters; `lvl i` is the level of
    entry `i`. -/
def needFrom (lvl : Nat → Nat) : (slots : Nat) → (i chars : Nat) → Nat
  | 0, _, _ => 0
  | slots + 1, i, chars =>
    if chars = 0 then 0 else 1 + needBelow (lvl i) chars + needFrom lvl slots (i + 1) (chars - cap (lvl i))

/-- The characters that new trees at `slots` entries from `i` on hold. -/
def capFrom (lvl : Nat → Nat) : (slots : Nat) → (i : Nat) → Nat
  | 0, _ => 0
  | slots + 1, i => cap (lvl i) + capFrom lvl slots (i + 1)

section
variable {n : Nat} {zones zones' : Int → Zone}

theorem needFrom_const (m i chars : Nat) : needFrom (fun _ => n) m i chars = needNew n (needBelow n) m chars := by
  induction m generalizing i chars with
  | zero => rfl
  | succ m ih => simp only [needFrom, needNew, ih]

theorem capFrom_const (m i : Nat) : capFrom (fun _ => n) m i = m * cap n := by
  induction m generalizing i with
  | zero => exact (Nat.zero_mul _).symm
  | succ m ih => rw [capFrom, ih, Nat.succ_mul, Nat.add_comm]

theorem needFrom_succ {lvl : Nat → Nat} {m i chars : Nat} (h : chars ≠ 0) : needFrom lvl (m + 1) i chars =
    1 + needBelow (lvl i) chars + needFrom lvl m (i + 1) (chars - cap (lvl i)) := if_neg h

theorem needFrom_zero {lvl : Nat → Nat} {m i : Nat} : needFrom lvl m i 0 = 0 := by
  cases m <;> rfl

theorem id_mem_ids (t : FileTree n) : t.id ∈ t.ids := by
  cases n <;> exact List.mem_cons_self

@[simp] theorem id_new (id : Int) : (new n id).id = id := by cases n <;> rfl

@[simp] theorem text_new (id : Int) : (new n id).text = [] := by cases n <;> rfl

@[simp] theorem ids_new (id : Int) : (new n id).ids = [id] := by cases n <;> rfl

@[simp] theorem lastPath_new (id : Int) : (new n id).lastPath = [id] := by cases n <;> rfl

theorem ready_new (id : Int) : (new n id).Ready := by
  cases n with
  | zero => trivial
  | succ n => exact ⟨nofun, nofun⟩

@[simp] theorem room_new (id : Int) : (new n id).room = cap n := by
  cases n with
  | zero => rfl
  | succ n =>
    show 0 + 32 * cap n = cap (n + 1)
    unfold cap
    rw [Nat.pow_succ]
    omega

@[simp] theorem need_new (id : Int) (chars : Nat) : (new n id).need chars = needBelow n chars := by
  cases n with
  | zero => rfl
  | succ n =>
    show 0 + needNew n (needBelow n) 32 (chars - 0) = needNew n (needBelow n) 32 chars
    rw [Nat.zero_add, Nat.sub_zero]

/-! An index zone by its last entry -/

section
variable {m : Nat} {id : Int} {init : List (FileTree n)} {last : FileTree n} {chars : Nat}

theorem room_nil : room (n := n + 1) (id, []) = 32 * cap n := Nat.zero_add _

theorem room_concat : room (n := n + 1) (id, init ++ [last]) = last.room + (31 - init.length) * cap n := by
  simp [room]

theorem needNew_succ {below : Nat → Nat} (h : chars ≠ 0) :
    needNew n below (m + 1) chars = 1 + below chars + needNew n below m (chars - cap n) := if_neg h

theorem need_nil : need (n := n + 1) (id, []) chars = needNew n (needBelow n) 32 chars := Nat.zero_add _

theorem need_concat : need (n := n + 1) (id, init ++ [last]) chars =
    last.need chars + needNew n (needBelow n) (31 - init.length) (chars - last.room) := by
  simp [need]

theorem lastPath_nil : lastPath (n := n + 1) (id, []) = [id] := rfl

theorem lastPath_concat : lastPath (n := n + 1) (id, init ++ [last]) = id :: last.lastPath := by simp [lastPath]

end

theorem rep_new {id : Int} (hid : 4 ≤ id) (hz : zones id = .zero) : (new n id).Rep zones := by
  cases n with
  | zero => exact ⟨hid, hz ▸ Bytes.hasStr_zero (by omega)⟩
  | succ n => exact ⟨hid, hz ▸ .nil fun i _ => Bytes.int16_zero _, nofun⟩

theorem Rep.le {t : FileTree n} (h : t.Rep zones) : 4 ≤ t.id := by
  cases n <;> exact h.1

theorem Rep.refs {t : FileTree n} (h : t.Rep zones) : t.Refs zones := by
  induction n with
  | zero => exact h.1
  | succ n ih => exact ⟨h.1, h.2.1, fun k hk => ih (h.2.2 k hk)⟩

theorem Full.wide {t : FileTree n} (h : t.Full) : t.Wide := by
  induction n with
  | zero => trivial
  | succ n ih => exact ⟨h.1, fun k hk => ih (h.2 k hk)⟩

/-- A tree depends on its own zones only. -/
theorem Rep.congr {t : FileTree n} (h : t.Rep zones) (heq : ∀ z ∈ t.ids, zones' z = zones z) : t.Rep zones' := by
  induction n with
  | zero =>
    obtain ⟨id, text⟩ := t
    have hid : zones' id = zones id := heq id List.mem_cons_self
    exact ⟨h.1, hid ▸ h.2⟩
  | succ n ih =>
    obtain ⟨id, kids⟩ := t
    have hid : zones' id = zones id := heq id List.mem_cons_self
    refine ⟨h.1, hid ▸ h.2.1, fun k hk => ih (h.2.2 k hk) fun z hz => ?_⟩
    exact heq z (List.mem_cons_of_mem _ (List.mem_flatMap.mpr ⟨k, hk, hz⟩))

theorem Refs.congr {t : FileTree n} (h : t.Refs zones) (heq : ∀ z ∈ t.ids, zones' z = zones z) : t.Refs zones' := by
  induction n with
  | zero => exact h
  | succ n ih =>
    obtain ⟨id, kids⟩ := t
    have hid : zones' id = zones id := heq id List.mem_cons_self
    refine ⟨h.1, hid ▸ h.2.1, fun k hk => ih (h.2.2 k hk) fun z hz => ?_⟩
    exact heq z (List.mem_cons_of_mem _ (List.mem_flatMap.mpr ⟨k, hk, hz⟩))

theorem Packed.ready {t : FileTree n} (h : t.Packed) : t.Ready := by
  induction n with
  | zero => trivial
  | succ n ih => exact ⟨h.2.1, fun k hk => ih (h.2.2 k hk)⟩

theorem Full.packed {t : FileTree n} (h : t.Full) : t.Packed := by
  induction n with
  | zero => trivial
  | succ n ih =>
    obtain ⟨id, kids⟩ := t
    obtain ⟨hlen, hfull⟩ := h
    refine ⟨?_, fun k hk => hfull k (List.mem_of_mem_dropLast hk), fun k hk => ih (hfull k (List.mem_of_getLast? hk))⟩
    rintro rfl
    cases hlen

theorem lastPath_subset {t : FileTree n} : ∀ z ∈ t.lastPath, z ∈ t.ids := by
  induction n with
  | zero => exact fun z hz => hz
  | succ n ih =>
    obtain ⟨id, kids⟩ := t
    intro z hz
    rcases List.mem_cons.mp hz with rfl | hz
    · exact List.mem_cons_self
    · cases hlast : kids.getLast? with
      | none => rw [hlast] at hz; cases hz
      | some k =>
        rw [hlast] at hz
        exact List.mem_cons_of_mem _ (List.mem_flatMap.mpr ⟨k, List.mem_of_getLast? hlast, ih z hz⟩)

end

end FileTree

/-- A tree of any level: what a pointer of an inode or an entry of an index zone refers to. -/
abbrev Kid := Σ n, FileTree n

/-! ## Taking zones -/

/-- The zones `new` were free and are now marked as data; no other state has changed. -/
structure Store.Takes {nb : Nat} (s : Store nb) (new : List Int) (s' : Store nb) : Prop where
  nodup : new.Nodup
  free : ∀ z ∈ new, 4 ≤ z ∧ s.state z = some unoccupied
  state : ∀ z, s'.state z = if z ∈ new then some fOccupied else s.state z

namespace Store
variable {nb : Nat} {s s' s'' : Store nb}

theorem Takes.nil (h : ∀ z, s'.state z = s.state z) : s.Takes [] s' :=
  ⟨List.nodup_nil, fun z hz => by simp at hz, fun z => by rw [h, if_neg (List.not_mem_nil)]⟩

theorem SetState.takes {id : Int} (h4 : 4 ≤ id) (hs : s.state id = some unoccupied) (h : s.SetState id fOccupied s') :
    s.Takes [id] s' where
  nodup := List.nodup_singleton id
  free := fun z hz => by rw [List.mem_singleton.mp hz]; exact ⟨h4, hs⟩
  state := fun z => by rw [h.state]; simp only [List.mem_singleton]

theorem Takes.trans {as bs : List Int} (h : s.Takes as s') (h' : s'.Takes bs s'') : s.Takes (as ++ bs) s'' := by
  -- A zone that is free after the first step is not one that it took.
  have hdisj : ∀ z ∈ bs, z ∉ as := by
    intro z hz ha
    have hfree := (h'.free z hz).2
    rw [h.state, if_pos ha] at hfree
    exact absurd hfree (by decide)
  refine ⟨List.nodup_append.mpr ⟨h.nodup, h'.nodup, fun a ha b hb hab => hdisj b hb (hab ▸ ha)⟩, fun z hz => ?_, fun z => ?_⟩
  · rcases List.mem_append.mp hz with hz | hz
    · exact h.free z hz
    · have hfree := h'.free z hz
      rw [h.state, if_neg (hdisj z hz)] at hfree
      exact hfree
  · rw [h'.state, h.state]
    by_cases ha : z ∈ as <;> by_cases hb : z ∈ bs <;> simp [ha, hb]

/-- The zone is not free. -/
def Used (s : Store nb) (z : Int) : Prop := ∃ b, s.state z = some b ∧ b ≠ unoccupied

theorem used_of_state {z : Int} {b : Byte} (h : s.state z = some b) (hb : b ≠ unoccupied) : s.Used z := ⟨b, h, hb⟩

/-- A zone that is in use is not among those that are taken. -/
theorem Takes.not_mem {new : List Int} (h : s.Takes new s') {z : Int} (hz : s.Used z) : z ∉ new := by
  obtain ⟨b, hz, hb⟩ := hz
  intro hmem
  have := (h.free z hmem).2
  rw [hz] at this
  exact hb (Option.some.inj this)

theorem Takes.keeps {new : List Int} (h : s.Takes new s') {z : Int} (hz : s.Used z) : s'.state z = s.state z := by
  rw [h.state, if_neg (h.not_mem hz)]

theorem Takes.used {new : List Int} (h : s.Takes new s') {z : Int} (hz : s.Used z) : s'.Used z := by
  obtain ⟨b, hb, hne⟩ := hz
  exact ⟨b, (h.keeps ⟨b, hb, hne⟩).trans hb, hne⟩

theorem Takes.nodup_append {l new : List Int} (h : s.Takes new s') (hl : l.Nodup) (hs : ∀ z ∈ l, s.Used z) :
    (l ++ new).Nodup :=
  List.nodup_append.mpr ⟨hl, h.nodup, fun a ha _ hb hab => h.not_mem (hs a ha) (hab ▸ hb)⟩

theorem Takes.used_append {l new : List Int} (h : s.Takes new s') (hs : ∀ z ∈ l, s.Used z) : ∀ z ∈ l ++ new, s'.Used z := by
  intro z hz
  rcases List.mem_append.mp hz with hz | hz
  · exact h.used (hs z hz)
  · exact ⟨fOccupied, by rw [h.state, if_pos hz], by decide⟩

@[simp] theorem state_write (s : Store nb) (id : Int) (z : Zone) (i : Int) : (s.write id z).state i = s.state i := rfl

@[simp] theorem zones_write_self (s : Store nb) (id : Int) (z : Zone) : (s.write id z).zones id = z := if_pos rfl

theorem zones_write_of_ne {id i : Int} (z : Zone) (h : i ≠ id) : (s.write id z).zones i = s.zones i := if_neg h

theorem write_self (s : Store nb) (id : Int) : s.write id (s.zones id) = s := by
  unfold write
  congr
  funext i
  by_cases hi : i = id
  · rw [if_pos hi, hi]
  · rw [if_neg hi]

end Store

end MiniFs
