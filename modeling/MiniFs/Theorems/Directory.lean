import MiniFs.Theorems.FileTree

/-! # The zones of a directory

A directory is a dentry and a chain of dir_zones after it. Its entries fill the slots in order, and only the last
zone of the chain has free slots. `add_sub` appends an entry; `rm_sub` takes out an entry of the last zone. -/

namespace MiniFs
open Interact Memory

/-- An entry of a directory: a name and the id that it stands for. -/
abbrev Entry := Str × Int

/-- A dir_zone of a chain: its id and its entries. -/
abbrev Seg := Int × List Entry

/-! ## Slots -/

/-- The slots follow the head of the zone, and `next` follows them. -/
structure Layout.Ok (L : Layout) : Prop where
  pos : 0 < L.subs
  base : 2 ≤ L.base
  next : L.base + 12 * L.subs = L.nextOff
  fits : L.nextOff + 2 ≤ 64

theorem dentry_ok : dentry.Ok := ⟨by decide, by decide, by decide, by decide⟩
theorem dirZone_ok : dirZone.Ok := ⟨by decide, by decide, by decide, by decide⟩

/-- Slot `i` holds the entry, or is free: then all its bytes are zero. -/
def SlotIs (L : Layout) (z : Zone) (i : Nat) : Option Entry → Prop
  | none => L.subId z i = 0 ∧ ∀ j < 10, z.get (L.nameOff i + j) = 0
  | some e => L.subId z i = e.2 ∧ e.2 ≠ 0 ∧ z.HasStr (L.nameOff i) e.1 ∧ e.1.length ≤ 9

instance (L : Layout) (z : Zone) (i : Nat) : (o : Option Entry) → Decidable (SlotIs L z i o)
  | none => inferInstanceAs (Decidable (_ ∧ _))
  | some _ => inferInstanceAs (Decidable (_ ∧ _))

/-- The entries are in the first slots of the zone, and the other slots are free. -/
structure Entries (L : Layout) (z : Zone) (es : List Entry) : Prop where
  le : es.length ≤ L.subs
  slot : ∀ i < L.subs, SlotIs L z i es[i]?

instance (L : Layout) (z : Zone) (es : List Entry) : Decidable (Entries L z es) :=
  decidable_of_iff (es.length ≤ L.subs ∧ ∀ i < L.subs, SlotIs L z i es[i]?) ⟨fun h => ⟨h.1, h.2⟩, fun h => ⟨h.le, h.slot⟩⟩

/-- The two zones agree outside of their slots and of `next`. -/
def SameHead (L : Layout) (z z' : Zone) : Prop := ∀ i, i < L.base ∨ L.nextOff + 2 ≤ i → z'.get i = z.get i

section
variable {L : Layout} {z z' : Zone} {es : List Entry} {i j : Nat} {id : Int} {name : Str} {o : Option Entry}

theorem SlotIs.congr (h : SlotIs L z i o) (heq : ∀ k, L.idOff i ≤ k → k < L.idOff i + 12 → z'.get k = z.get k) :
    SlotIs L z' i o := by
  have hid : L.subId z' i = L.subId z i := by
    unfold Layout.subId Bytes.int16
    rw [heq _ (Nat.le_refl _) (by omega), heq _ (by omega) (by omega)]
  cases o with
  | none =>
    refine ⟨hid.trans h.1, fun k hk => (heq _ ?_ ?_).trans (h.2 k hk)⟩ <;> unfold Layout.nameOff Layout.idOff <;> omega
  | some e =>
    refine ⟨hid.trans h.1, h.2.1, h.2.2.1.congr fun k hk hk' => heq k ?_ ?_, h.2.2.2⟩
    · unfold Layout.nameOff at hk
      unfold Layout.idOff
      omega
    · have := h.2.2.2
      unfold Layout.nameOff at hk'
      unfold Layout.idOff
      omega

/-- The bytes of slot `i`. -/
def InSlot (L : Layout) (i k : Nat) : Prop := L.idOff i ≤ k ∧ k < L.idOff i + 12

/-- Only bytes of slot `i` differ. -/
def SlotWrite (L : Layout) (i : Nat) (z z' : Zone) : Prop := ∀ k, ¬InSlot L i k → z'.get k = z.get k

theorem SlotWrite.trans {z'' : Zone} (h : SlotWrite L i z z') (h' : SlotWrite L i z' z'') : SlotWrite L i z z'' :=
  fun k hk => (h' k hk).trans (h k hk)

theorem SlotIs.of_write (h : SlotIs L z j o) (hw : SlotWrite L i z z') (hij : j ≠ i) : SlotIs L z' j o := by
  refine h.congr fun k hk hk' => hw k fun hin => ?_
  have hi := hin.1
  have hi' := hin.2
  unfold Layout.idOff at *
  omega

theorem SlotWrite.head (hL : L.Ok) (hi : i < L.subs) (h : SlotWrite L i z z') : SameHead L z z' := by
  have := hL.next
  refine fun k hk => h k fun hin => ?_
  have h1 := hin.1
  have h2 := hin.2
  unfold Layout.idOff at h1 h2
  omega

theorem SlotWrite.next (hL : L.Ok) (hi : i < L.subs) (h : SlotWrite L i z z') : L.next z' = L.next z := by
  have := hL.next
  have hout : ∀ k, L.nextOff ≤ k → ¬InSlot L i k := fun k hk hin => by
    have h1 := hin.2
    unfold Layout.idOff at h1
    omega
  unfold Layout.next Bytes.int16
  rw [h _ (hout _ (Nat.le_refl _)), h _ (hout _ (by omega))]

theorem slotWrite_setSubId (L : Layout) (z : Zone) (i : Nat) (id : Int) : SlotWrite L i z (L.setSubId z i id) :=
    fun k hk => by
  refine Bytes.get_blit_of_disjoint ?_
  rw [length_bytes16]
  unfold InSlot at hk
  omega

theorem slotWrite_clearName : SlotWrite L i z (L.clearName z i) := fun k hk => by
  refine Bytes.get_blit_of_disjoint ?_
  rw [List.length_replicate]
  unfold InSlot Layout.idOff at hk
  unfold Layout.nameOff
  omega

theorem slotWrite_strcpy (hlen : name.length ≤ 9) : SlotWrite L i z (z.blit (L.nameOff i) (name ++ [0])) := fun k hk => by
  refine Bytes.get_blit_of_disjoint ?_
  rw [List.length_append, List.length_singleton]
  unfold InSlot Layout.idOff at hk
  unfold Layout.nameOff
  omega

theorem subId_setSubId (hL : L.Ok) (hi : i < L.subs) (hid : Zone.Fits id) : L.subId (L.setSubId z i id) i = id := by
  have := hL.next
  have := hL.fits
  refine Bytes.int16_blit_bytes16 ?_ hid.1 hid.2
  unfold Layout.idOff
  omega

/-- `subs[i].id = id; strcpy(subs[i].name, name)` -/
theorem slotIs_set (hL : L.Ok) (hi : i < L.subs) (hid : Zone.Fits id) (h0 : id ≠ 0) (hname : NulFree name)
    (hlen : name.length ≤ 9) : SlotIs L ((L.setSubId z i id).blit (L.nameOff i) (name ++ [0])) i (some (name, id)) := by
  have := hL.next
  have := hL.fits
  refine ⟨(Bytes.int16_blit_of_disjoint ?_).trans (subId_setSubId hL hi hid), h0, Bytes.hasStr_blit hname ?_, hlen⟩
  · unfold Layout.idOff Layout.nameOff
    omega
  · unfold Layout.nameOff
    omega

/-- `subs[i].id = 0; bzero(subs[i].name, 10)` -/
theorem slotIs_clear (hL : L.Ok) (hi : i < L.subs) : SlotIs L (L.clearName (L.setSubId z i 0) i) i none := by
  have := hL.next
  have := hL.fits
  refine ⟨(Bytes.int16_blit_of_disjoint ?_).trans (subId_setSubId hL hi ⟨by omega, by omega⟩), fun j hj => ?_⟩
  · unfold Layout.idOff Layout.nameOff
    omega
  · refine (Bytes.get_blit_of_mem (Nat.le_add_right _ _) (by simpa using hj) ?_).trans ?_
    · unfold Layout.nameOff
      omega
    · have hzero : ∀ k < 10, (List.replicate 10 (0 : Byte)).getD k 0 = 0 := by decide
      rw [Nat.add_sub_cancel_left]
      exact hzero j hj

theorem strcpy_eq (hL : L.Ok) (hi : i < L.subs) (hlen : name.length ≤ 9) :
    z.strcpy (L.nameOff i) name = some (z.blit (L.nameOff i) (name ++ [0])) := by
  have := hL.next
  have := hL.fits
  unfold Bytes.strcpy Layout.nameOff
  rw [if_pos (by omega)]

namespace Entries

theorem holds (h : Entries L z es) : Holds (L.subId z) L.subs (es.map Prod.snd) where
  le := by rw [List.length_map]; exact h.le
  used := fun i hi => by
    rw [List.length_map] at hi
    have hslot := h.slot i (hi.trans_le h.le)
    rw [List.getElem?_eq_getElem hi] at hslot
    rw [List.getElem_map]
    exact hslot.1
  free := fun i hi hc => by
    rw [List.length_map] at hi
    have hslot := h.slot i hc
    rw [List.getElem?_eq_none hi] at hslot
    exact hslot.1
  ne := fun y hy => by
    obtain ⟨e, he, rfl⟩ := List.mem_map.mp hy
    obtain ⟨i, hi, rfl⟩ := List.mem_iff_getElem.mp he
    have hslot := h.slot i (hi.trans_le h.le)
    rw [List.getElem?_eq_getElem hi] at hslot
    exact hslot.2.1

theorem get (h : Entries L z es) (hi : i < es.length) : SlotIs L z i (some es[i]) := by
  have hslot := h.slot i (hi.trans_le h.le)
  rwa [List.getElem?_eq_getElem hi] at hslot

theorem subId_eq_zero (h : Entries L z es) (hi : i < L.subs) : L.subId z i = 0 ↔ es.length ≤ i := by
  rw [h.holds.eq_zero_iff hi, List.length_map]

theorem congr (h : Entries L z es) (heq : ∀ k, L.base ≤ k → k < L.nextOff → z'.get k = z.get k) (hL : L.Ok) :
    Entries L z' es := by
  have := hL.next
  refine ⟨h.le, fun i hi => (h.slot i hi).congr fun k hk hk' => heq k ?_ ?_⟩ <;> unfold Layout.idOff at * <;> omega

/-- The first free slot gets a new entry. -/
theorem concat (h : Entries L z es) (hlt : es.length < L.subs) {e : Entry} (hnew : SlotIs L z' es.length (some e))
    (hw : SlotWrite L es.length z z') : Entries L z' (es ++ [e]) := by
  refine ⟨by rw [List.length_append, List.length_singleton]; exact hlt, fun i hi => ?_⟩
  by_cases heq : i = es.length
  · subst heq
    rwa [List.getElem?_append_right (Nat.le_refl _), Nat.sub_self, List.getElem?_cons_zero]
  · have hget : (es ++ [e])[i]? = es[i]? := by
      by_cases hi' : i < es.length
      · rw [List.getElem?_append_left hi']
      · rw [List.getElem?_append_right (by omega), List.getElem?_eq_none (by simp; omega), List.getElem?_eq_none (by omega)]
    rw [hget]
    exact (h.slot i hi).of_write hw heq

/-- The last entry takes the place of entry `i`. -/
theorem remove (h : Entries L z es) (hi : i < es.length) {z₁ : Zone}
    (hmove : ∃ last, es[es.length - 1]? = some last ∧ SlotIs L z₁ i (some last)) (hw₁ : SlotWrite L i z z₁)
    (hclear : SlotIs L z' (es.length - 1) none) (hw : SlotWrite L (es.length - 1) z₁ z') :
    Entries L z' ((es.set i (es.getLast (List.ne_nil_of_length_pos (by omega)))).dropLast) := by
  have hle := h.le
  refine ⟨by rw [List.length_dropLast, List.length_set]; omega, fun j hj => ?_⟩
  rw [List.getElem?_dropLast, List.length_set]
  by_cases hj' : j < es.length - 1
  · rw [if_pos hj', List.getElem?_set]
    refine SlotIs.of_write ?_ hw (by omega)
    by_cases hij : i = j
    · subst hij
      obtain ⟨last, hlast, hslot⟩ := hmove
      rw [if_pos rfl, if_pos hi, List.getLast_eq_getElem, ← List.getElem?_eq_getElem, hlast]
      exact hslot
    · rw [if_neg hij]
      exact (h.slot j hj).of_write hw₁ (Ne.symm hij)
  · rw [if_neg hj']
    by_cases hjl : j = es.length - 1
    · rw [hjl]
      exact hclear
    · have hnone : es[j]? = none := List.getElem?_eq_none (by omega)
      have hslot := h.slot j hj
      rw [hnone] at hslot
      exact (hslot.of_write hw₁ (by omega)).of_write hw hjl

end Entries

end

/-! ## Loops over the slots -/

section
variable {L : Layout} {z : Zone} {es : List Entry} {i n : Nat} {id : Int}

theorem lastFree_eq (h : Entries L z es) (hi : i ≤ L.subs) (hle : es.length ≤ i) : lastFree L z i = es.length := by
  induction i with
  | zero =>
    unfold lastFree
    omega
  | succ i ih =>
    unfold lastFree
    by_cases hlt : i < es.length
    · rw [if_pos (by rw [ne_eq, h.subId_eq_zero (by omega)]; omega)]
      omega
    · rw [if_neg (by rw [ne_eq, h.subId_eq_zero (by omega)]; omega)]
      exact ih (by omega) (by omega)

/-- The scan stops at the entry with that id. -/
theorem findSub_of_getElem (h : Entries L z es) (hnodup : (es.map Prod.snd).Nodup) {k : Nat} (hk : k < es.length)
    (hid : es[k].2 = id) (hi : i ≤ k) (hn : k < i + n) : findSub L z id n i = some k := by
  induction n generalizing i with
  | zero => omega
  | succ n ih =>
    unfold findSub
    have hlt : i < es.length := by omega
    have hsub : L.subId z i = es[i].2 := (h.get hlt).1
    have hle := h.le
    rw [if_neg (by rw [h.subId_eq_zero (by omega)]; omega), hsub]
    by_cases hik : i = k
    · subst hik
      rw [if_pos hid.symm]
    · have hne : ¬id = es[i].2 := fun heq => by
        have hi' : i < (es.map Prod.snd).length := by simpa using hlt
        have hk' : k < (es.map Prod.snd).length := by simpa using hk
        have hget : (es.map Prod.snd)[i] = (es.map Prod.snd)[k] := by simp [hid, ← heq]
        exact hik (hnodup.getElem_inj_iff.mp hget)
      rw [if_neg hne]
      exact ih (by omega) (by omega)

theorem findSub_of_not_mem (h : Entries L z es) (hid : id ∉ es.map Prod.snd) (hn : i + n ≤ L.subs) :
    findSub L z id n i = none := by
  induction n generalizing i with
  | zero => rfl
  | succ n ih =>
    unfold findSub
    by_cases hlt : i < es.length
    · have hsub : L.subId z i = es[i].2 := (h.get hlt).1
      rw [if_neg (by rw [h.subId_eq_zero (by omega)]; omega), hsub]
      have hne : ¬id = es[i].2 := fun heq => hid (heq ▸ List.mem_map_of_mem (List.getElem_mem hlt))
      rw [if_neg hne]
      exact ih (by omega)
    · rw [if_pos ((h.subId_eq_zero (by omega)).mpr (by omega))]

theorem runEnd_eq (h : Entries L z es) (hi : i < es.length) (hn : es.length ≤ i + n + 1) (hle : i + n < L.subs) :
    runEnd L z n i = es.length - 1 := by
  induction n generalizing i with
  | zero =>
    unfold runEnd
    omega
  | succ n ih =>
    unfold runEnd
    by_cases hlt : i + 1 < es.length
    · rw [if_pos (by rw [ne_eq, h.subId_eq_zero (by omega)]; omega)]
      exact ih hlt (by omega) (by omega)
    · rw [if_neg (by rw [ne_eq, h.subId_eq_zero (by omega)]; omega)]
      omega

theorem countUsed_eq (h : Entries L z es) (hn : i + n = L.subs) : countUsed L z n i = es.length - i := by
  have hle := h.le
  induction n generalizing i with
  | zero =>
    unfold countUsed
    omega
  | succ n ih =>
    unfold countUsed
    by_cases hlt : i < es.length
    · rw [if_pos (by rw [ne_eq, h.subId_eq_zero (by omega)]; omega), ih (by omega)]
      omega
    · rw [if_neg (by rw [ne_eq, h.subId_eq_zero (by omega)]; omega)]
      omega

end

/-! ## Chains -/

/-- The zone `z` with entries `es` and the chain of dir_zones after it. -/
def Chain (zones : Int → Zone) : Layout → Int → List Entry → List Seg → Prop
  | L, z, es, [] => Entries L (zones z) es ∧ L.next (zones z) = 0
  | L, z, es, seg :: rest =>
    Entries L (zones z) es ∧ es.length = L.subs ∧ L.next (zones z) = seg.1 ∧ 4 ≤ seg.1 ∧ Chain zones dirZone seg.1 seg.2 rest

instance decidableChain (zones : Int → Zone) : (L : Layout) → (z : Int) → (es : List Entry) → (rest : List Seg) →
    Decidable (Chain zones L z es rest)
  | _, _, _, [] => inferInstanceAs (Decidable (_ ∧ _))
  | L, z, es, seg :: rest =>
    have := decidableChain zones dirZone seg.1 seg.2 rest
    inferInstanceAs (Decidable (Entries L (zones z) es ∧ es.length = L.subs ∧ L.next (zones z) = seg.1 ∧ 4 ≤ seg.1 ∧
      Chain zones dirZone seg.1 seg.2 rest))

/-- All entries of a chain. -/
def entriesOf (es : List Entry) (rest : List Seg) : List Entry := es ++ rest.flatMap Prod.snd

/-- The entries of the last zone of a chain. -/
def lastEntries : List Entry → List Seg → List Entry
  | es, [] => es
  | _, seg :: rest => lastEntries seg.2 rest

/-- The last zone of a chain. -/
def lastSeg : Int → List Seg → Int
  | z, [] => z
  | _, seg :: rest => lastSeg seg.1 rest

/-- The number of slots of the last zone of a chain. -/
def lastSubs (L : Layout) (rest : List Seg) : Nat := if rest = [] then L.subs else dirZone.subs

/-- The layout of the last zone of a chain. -/
def lastLayout (L : Layout) (rest : List Seg) : Layout := if rest = [] then L else dirZone

theorem lastLayout_cons {L : Layout} {seg : Seg} {rest : List Seg} :
    lastLayout L (seg :: rest) = lastLayout dirZone rest := by
  unfold lastLayout
  rw [if_neg (List.cons_ne_nil _ _), ite_self]

theorem lastSubs_cons {L : Layout} {seg : Seg} {rest : List Seg} : lastSubs L (seg :: rest) = lastSubs dirZone rest := by
  unfold lastSubs
  rw [if_neg (List.cons_ne_nil _ _), ite_self]

section
variable {zones zones' : Int → Zone} {L : Layout} {z : Int} {es : List Entry} {rest : List Seg}

theorem Chain.entries (h : Chain zones L z es rest) : Entries L (zones z) es := by
  cases rest with
  | nil => exact h.1
  | cons seg rest => exact h.1

theorem Chain.congr (h : Chain zones L z es rest) (hz : zones' z = zones z)
    (heq : ∀ i ∈ rest.map Prod.fst, zones' i = zones i) : Chain zones' L z es rest := by
  induction rest generalizing L z es with
  | nil => exact ⟨hz ▸ h.1, hz ▸ h.2⟩
  | cons seg rest ih =>
    refine ⟨hz ▸ h.1, h.2.1, hz ▸ h.2.2.1, h.2.2.2.1, ih h.2.2.2.2 (heq _ List.mem_cons_self) fun i hi => ?_⟩
    exact heq i (List.mem_cons_of_mem _ hi)

theorem Chain.le (h : Chain zones L z es rest) : ∀ i ∈ rest.map Prod.fst, 4 ≤ i := by
  induction rest generalizing L z es with
  | nil => exact nofun
  | cons seg rest ih =>
    intro i hi
    rcases List.mem_cons.mp hi with rfl | hi
    · exact h.2.2.2.1
    · exact ih h.2.2.2.2 i hi

/-- The names of a chain fit their slots. -/
theorem Chain.short (h : Chain zones L z es rest) : ∀ e ∈ entriesOf es rest, e.1.length ≤ 9 := by
  have hzone : ∀ {L : Layout} {z : Zone} {es : List Entry}, Entries L z es → ∀ e ∈ es, e.1.length ≤ 9 := fun h e he => by
    obtain ⟨i, hi, rfl⟩ := List.mem_iff_getElem.mp he
    exact (h.get hi).2.2.2
  induction rest generalizing L z es with
  | nil =>
    intro e he
    exact hzone h.1 e (by simpa [entriesOf] using he)
  | cons seg rest ih =>
    intro e he
    rcases List.mem_append.mp he with he | he
    · exact hzone h.1 e he
    · exact ih h.2.2.2.2 e he

theorem lastEntries_sublist : (lastEntries es rest).Sublist (entriesOf es rest) := by
  induction rest generalizing es with
  | nil => exact List.sublist_append_left _ _
  | cons seg rest ih => exact ih.trans (List.sublist_append_right es (entriesOf seg.2 rest))

theorem lastEntries_subset : ∀ e ∈ lastEntries es rest, e ∈ entriesOf es rest := fun _ he => lastEntries_sublist.mem he

end

/-! ## Adding an entry -/

section
variable {L : Layout} {z z' : Zone} {v : Int}

theorem entries_setNext {es : List Entry} (hL : L.Ok) (h : Entries L z es) : Entries L (L.setNext z v) es := by
  refine h.congr (fun k _ hk => Bytes.get_blit_of_disjoint ?_) hL
  omega

theorem next_setNext (hL : L.Ok) (hv : Zone.Fits v) : L.next (L.setNext z v) = v :=
  Bytes.int16_blit_bytes16 hL.fits hv.1 hv.2

theorem sameHead_setNext (hL : L.Ok) : SameHead L z (L.setNext z v) := fun k hk => by
  refine Bytes.get_blit_of_disjoint ?_
  have := hL.next
  rw [length_bytes16]
  omega

theorem SameHead.trans {z'' : Zone} (h : SameHead L z z') (h' : SameHead L z' z'') : SameHead L z z'' :=
  fun i hi => (h' i hi).trans (h i hi)

/-- A zone that is zero has no entries. -/
theorem entries_blank {L : Layout} : Entries L .zero [] :=
  ⟨Nat.zero_le _, fun _ _ => ⟨Bytes.int16_zero _, fun _ _ => Bytes.get_zero _⟩⟩

/-- A new dir_zone has no entries. -/
theorem entries_zero (L : Layout) (hL : L.Ok) : Entries L (Zone.setParent .zero v) [] := by
  have hbase := hL.base
  refine entries_blank.congr (fun k hk _ => ?_) hL
  exact Bytes.get_blit_of_disjoint (by rw [length_bytes16]; omega)

end

/-- The chain at `z` has the entry `e` at its end, in a new dir_zone if it had no free slot. -/
structure Added (s : Store) (L : Layout) (z : Int) (zone : Zone) (es : List Entry) (rest : List Seg) (e : Entry)
    (s' : Store) (es' : List Entry) (rest' : List Seg) (new : List Int) : Prop where
  chain : Chain s'.zones L z es' rest'
  entries : entriesOf es' rest' = entriesOf es rest ++ [e]
  ids : rest'.map Prod.fst = rest.map Prod.fst ++ new
  takes : s.Takes new s'
  head : SameHead L zone (s'.zones z)
  frame : ∀ i, i ≠ z → i ∉ rest.map Prod.fst → i ∉ new → s'.zones i = s.zones i
  unchained : rest = [] → es.length < L.subs → es' = es ++ [e] ∧ rest' = []
  prior : ∀ i, i ≠ lastSeg z rest → i ∉ new → s'.zones i = (s.write z zone).zones i
  slots : ∀ k < (lastLayout L rest).nextOff, ¬InSlot (lastLayout L rest) (lastEntries es rest).length k →
    (s'.zones (lastSeg z rest)).get k = ((s.write z zone).zones (lastSeg z rest)).get k
  count : new.length = if (lastEntries es rest).length < lastSubs L rest then 0 else 1
  first : es <+: es'
  tail : (∀ seg ∈ rest, seg.2 ≠ []) → ∀ seg ∈ rest', seg.2 ≠ []

/-- What the functions that add an entry are given. -/
structure Addable (P : Policy) (s : Store) (L : Layout) (z : Int) (zone : Zone) (es : List Entry) (rest : List Seg)
    (e : Entry) (k : Nat) : Prop where
  le : 4 ≤ z
  chain : Chain (s.write z zone).zones L z es rest
  nodup : (z :: rest.map Prod.fst).Nodup
  used : ∀ i ∈ z :: rest.map Prod.fst, s.Used i
  fits : Zone.Fits e.2
  ne : e.2 ≠ 0
  nulFree : NulFree e.1
  short : e.1.length ≤ 9
  room : s.Room P (k + if (lastEntries es rest).length < lastSubs L rest then 0 else 1)

section
variable {P : Policy} {s : Store} {L : Layout} {z : Int} {zone : Zone} {es : List Entry} {rest : List Seg} {e : Entry}
  {k : Nat}

/-- The zone has a free slot. -/
theorem addSubAt_slot (hL : L.Ok) (h : Addable P s L z zone es [] e k) (hlt : es.length < L.subs) (cont : Int → FsM Unit) :
    wp (storeSem P) (addSubAt L cont z e.2 e.1 zone)
      (fun _ s' => ∃ es' rest' new, Added s L z zone es [] e s' es' rest' new ∧ s'.Room P k) s := by
  have hchain := h.chain
  have hentries : Entries L zone es := by simpa using hchain.1
  have hnext : L.next zone = 0 := by simpa using hchain.2
  have hfree : L.subId zone (L.subs - 1) = 0 := (hentries.subId_eq_zero (by omega)).mpr (by omega)
  unfold addSubAt
  rw [if_neg (not_not.mpr hnext), if_neg (not_not.mpr hfree)]
  dsimp only
  rw [lastFree_eq hentries (by omega) (by omega), strcpy_eq hL hlt h.short]
  refine wp_bind.mpr (wp_ret.mpr (writeZone_spec h.le ?_))
  have hw := (slotWrite_setSubId L zone es.length e.2).trans (slotWrite_strcpy h.short)
  refine ⟨es ++ [e], [], [], ⟨⟨?_, ?_⟩, by simp [entriesOf], rfl, .nil fun _ => rfl, ?_, fun i hi _ _ => ?_,
    fun _ _ => ⟨rfl, rfl⟩, fun i (hi : i ≠ z) _ => ?_, fun k _ hk => ?_, (if_pos hlt).symm,
    List.prefix_append _ _, fun _ => nofun⟩, h.room.mono (Nat.le_add_right _ _)⟩
  · rw [Store.zones_write_self]
    exact hentries.concat hlt (slotIs_set hL hlt h.fits h.ne h.nulFree h.short) hw
  · rw [Store.zones_write_self, hw.next hL hlt, hnext]
  · rw [Store.zones_write_self]
    exact hw.head hL hlt
  · exact Store.zones_write_of_ne _ hi
  · rw [Store.zones_write_of_ne _ hi, Store.zones_write_of_ne _ hi]
  · show ((s.write z _).zones z).get k = ((s.write z zone).zones z).get k
    rw [Store.zones_write_self, Store.zones_write_self]
    exact hw k hk

/-- The zone is full and the last one of the chain. -/
theorem addSubAt_full (hL : L.Ok) (h : Addable P s L z zone es [] e k) (hfull : es.length = L.subs) (cont : Int → FsM Unit) :
    wp (storeSem P) (addSubAt L cont z e.2 e.1 zone)
      (fun _ s' => ∃ es' rest' new, Added s L z zone es [] e s' es' rest' new ∧ s'.Room P k) s := by
  have hpos := hL.pos
  have hchain := h.chain
  have hentries : Entries L zone es := by simpa using hchain.1
  have hnext : L.next zone = 0 := by simpa using hchain.2
  have hused : L.subId zone (L.subs - 1) ≠ 0 := by
    rw [ne_eq, hentries.subId_eq_zero (by omega)]
    omega
  have hlast : ¬(lastEntries es []).length < lastSubs L [] := by
    rw [lastEntries, lastSubs, if_pos rfl]
    omega
  have hroom := h.room
  rw [if_neg hlast] at hroom
  unfold addSubAt
  rw [if_neg (not_not.mpr hnext), if_pos hused]
  refine wp_bind.mpr (getFreeId_spec isState_fOccupied (by decide) hroom fun nId s₁ h4 hlt hs hset hroom => ?_)
  have hfits : Zone.Fits nId := ⟨by omega, by omega⟩
  have htakes := hset.takes h4 hs
  have hne : z ≠ nId := by
    rintro rfl
    exact htakes.not_mem (h.used _ List.mem_cons_self) List.mem_cons_self
  have hzero := entries_zero (v := zone.parent) dirZone dirZone_ok
  have hw := (slotWrite_setSubId dirZone (Zone.setParent .zero zone.parent) 0 e.2).trans
    (slotWrite_strcpy h.short)
  have hnext' : dirZone.next (Zone.setParent .zero zone.parent) = 0 := by
    refine (Bytes.int16_blit_of_disjoint ?_).trans (Bytes.int16_zero _)
    rw [length_bytes16]
    decide
  refine wp_bind.mpr (writeZone_spec h.le ?_)
  dsimp only
  rw [strcpy_eq dirZone_ok (by decide) h.short, next_setNext hL hfits]
  refine wp_bind.mpr (wp_ret.mpr (writeZone_spec h4 ?_))
  refine ⟨es, [(nId, [e])], [nId], ⟨⟨?_, hfull, ?_, h4, ?_, ?_⟩, by simp [entriesOf], rfl,
    ⟨htakes.nodup, htakes.free, htakes.state⟩, ?_, fun i hi _ hnew => ?_, fun _ hlt' => by omega,
    fun i (hi : i ≠ z) hnew => ?_, fun k (hk : k < L.nextOff) _ => ?_, (if_neg hlast).symm, List.prefix_rfl,
    fun _ seg hseg => ?_⟩, hroom⟩
  · rw [Store.zones_write_of_ne _ hne, Store.zones_write_self]
    exact entries_setNext hL hentries
  · rw [Store.zones_write_of_ne _ hne, Store.zones_write_self, next_setNext hL hfits]
  · rw [Store.zones_write_self]
    exact hzero.concat (by decide) (slotIs_set dirZone_ok (by decide) h.fits h.ne h.nulFree h.short) hw
  · rw [Store.zones_write_self, hw.next dirZone_ok (by decide), hnext']
  · rw [Store.zones_write_of_ne _ hne, Store.zones_write_self]
    exact sameHead_setNext hL
  · rw [Store.zones_write_of_ne _ (by simpa using hnew), Store.zones_write_of_ne _ hi, hset.zones]
  · rw [Store.zones_write_of_ne _ (by simpa using hnew), Store.zones_write_of_ne _ hi, hset.zones,
    Store.zones_write_of_ne _ hi]
  · show (((Store.write _ z _).write nId _).zones z).get k = ((s.write z zone).zones z).get k
    rw [Store.zones_write_of_ne _ hne, Store.zones_write_self, Store.zones_write_self]
    exact Bytes.get_blit_of_disjoint (Or.inl hk)
  · rw [List.mem_singleton.mp hseg]
    exact List.cons_ne_nil _ _

/-- `add_sub_cont` along the chain, by induction on the zones after `z`. -/
theorem addSubAt_spec (hL : L.Ok) {fuel : Nat} (hfuel : rest.length < fuel) (h : Addable P s L z zone es rest e k) :
    wp (storeSem P) (addSubAt L (addSubCont fuel · e.2 e.1) z e.2 e.1 zone)
      (fun _ s' => ∃ es' rest' new, Added s L z zone es rest e s' es' rest' new ∧ s'.Room P k) s := by
  induction rest generalizing s L z zone es fuel with
  | nil =>
    by_cases hlt : es.length < L.subs
    · exact addSubAt_slot hL h hlt _
    · have hentries : Entries L zone es := by simpa using h.chain.1
      exact addSubAt_full hL h (Nat.le_antisymm hentries.le (by omega)) _
  | cons seg rest ih =>
    obtain ⟨hentries, hfull, hnext, h4, hrest⟩ := h.chain
    rw [Store.zones_write_self] at hentries hnext
    obtain ⟨hz, hnodup⟩ := List.nodup_cons.mp h.nodup
    have hne : seg.1 ≠ z := fun heq => hz (heq ▸ List.mem_cons_self)
    obtain ⟨fuel, rfl⟩ := Nat.exists_eq_succ_of_ne_zero (by omega : fuel ≠ 0)
    unfold addSubAt
    rw [if_pos (by rw [hnext]; omega), hnext]
    refine wp_bind.mpr (writeZone_spec h.le ?_)
    unfold addSubCont
    refine wp_bind.mpr (readZone_spec h4 ?_)
    have hnext' : Addable P (s.write z zone) dirZone seg.1 ((s.write z zone).zones seg.1) seg.2 rest e k := by
      refine ⟨h4, hrest.congr (Store.zones_write_self _ _ _) fun i hi => ?_, hnodup, fun i hi => ?_, h.fits, h.ne, h.nulFree,
        h.short, lastSubs_cons ▸ h.room⟩
      · refine Store.zones_write_of_ne _ ?_
        rintro rfl
        exact (List.nodup_cons.mp hnodup).1 hi
      · exact h.used i (List.mem_cons_of_mem _ hi)
    refine wp_mono (ih dirZone_ok (by simpa using hfuel) hnext') ?_
    rintro - s' ⟨es', rest', new, hadd, hroom⟩
    have hznew : z ∉ new := hadd.takes.not_mem (h.used z List.mem_cons_self)
    have hzone : s'.zones z = zone := by
      rw [hadd.frame z hne.symm (fun hi => hz (List.mem_cons_of_mem _ hi)) hznew, Store.zones_write_self]
    refine ⟨es, (seg.1, es') :: rest', new, ⟨⟨hzone ▸ hentries, hfull, hzone ▸ hnext, h4, hadd.chain⟩, ?_, ?_, ?_, ?_,
      fun i hi hchain hnew => ?_, nofun, fun i hi hnew => ?_, ?_, hadd.count.trans ?_, List.prefix_rfl,
      fun htail seg' hseg' => ?_⟩, hroom⟩
    · have := hadd.entries
      unfold entriesOf at this ⊢
      rw [List.flatMap_cons, List.flatMap_cons, this]
      simp only [List.append_assoc]
    · rw [List.map_cons, List.map_cons, hadd.ids, List.cons_append]
    · exact ⟨hadd.takes.nodup, hadd.takes.free, hadd.takes.state⟩
    · rw [hzone]
      exact fun _ _ => rfl
    · rw [List.map_cons, List.mem_cons, not_or] at hchain
      rw [hadd.frame i hchain.1 hchain.2 hnew, Store.zones_write_of_ne _ hi]
    · rw [hadd.prior i hi hnew, Store.write_self]
    · have hslots := hadd.slots
      rw [Store.write_self] at hslots
      rw [lastLayout_cons]
      exact hslots
    · rw [lastSubs_cons]
      rfl
    · rcases List.mem_cons.mp hseg' with rfl | hseg'
      · exact fun hnil => htail seg List.mem_cons_self (List.prefix_nil.mp (hnil ▸ hadd.first))
      · exact hadd.tail (fun sg hsg => htail sg (List.mem_cons_of_mem _ hsg)) seg' hseg'

theorem SameHead.parent {z z' : Zone} (h : SameHead dentry z z') : z'.parent = z.parent := by
  unfold Zone.parent Bytes.int16
  rw [h 0 (by decide), h (0 + 1) (by decide)]

theorem SameHead.time {z z' : Zone} (h : SameHead dentry z z') : z'.time = z.time := by
  unfold Zone.time Bytes.nat64
  have heq : ∀ i, z'.get (56 + i) = z.get (56 + i) := fun i => h _ (Or.inr (Nat.le_add_right 56 i))
  simp only [heq]

/-- The time is neither in the slots nor in `next`. -/
theorem Chain.setTime {d : Int} {t : UInt64} (h : Chain s.zones dentry d es rest) (hnodup : (d :: rest.map Prod.fst).Nodup) :
    Chain (s.write d ((s.zones d).setTime t)).zones dentry d es rest := by
  have hsame : ∀ i, i < 56 → ((s.zones d).setTime t).get i = (s.zones d).get i := fun i hi =>
    Bytes.get_blit_of_disjoint (Or.inl hi)
  have hoff : dentry.nextOff = 54 := rfl
  have hentries : Entries dentry ((s.zones d).setTime t) es := h.entries.congr (fun i _ hi => hsame i (by omega)) dentry_ok
  have hnext : dentry.next ((s.zones d).setTime t) = dentry.next (s.zones d) :=
    Bytes.int16_blit_of_disjoint (Or.inl (by decide))
  obtain ⟨hd, -⟩ := List.nodup_cons.mp hnodup
  cases rest with
  | nil => exact ⟨by rwa [Store.zones_write_self], by rw [Store.zones_write_self, hnext]; exact h.2⟩
  | cons seg rest =>
    refine ⟨by rwa [Store.zones_write_self], h.2.1, by rw [Store.zones_write_self, hnext]; exact h.2.2.1, h.2.2.2.1,
      h.2.2.2.2.congr (Store.zones_write_of_ne _ fun heq => hd (heq ▸ List.mem_cons_self)) fun i hi =>
        Store.zones_write_of_ne _ ?_⟩
    rintro rfl
    exact hd (List.mem_cons_of_mem _ hi)

/-- `add_sub` -/
theorem addSub_spec {d : Int} {Q : Unit → Store → Prop} (h : Addable P s dentry d (s.zones d) es rest e k)
    (hlen : rest.length < zoneFuel)
    (hQ : ∀ now s' es' rest' new, Added s dentry d ((s.zones d).setTime now) es rest e s' es' rest' new →
      (s'.zones d).parent = (s.zones d).parent → (s'.zones d).time < 2 ^ 63 → s'.Room P k → Q () s') :
    wp (storeSem P) (addSub d e.2 e.1) Q s := by
  unfold addSub
  refine wp_bind.mpr (readZone_spec h.le (wp_bind.mpr (time_spec fun t ht => ?_)))
  have hold := h.chain
  rw [Store.write_self] at hold
  have hchain : Chain (s.write d ((s.zones d).setTime t)).zones dentry d es rest := hold.setTime h.nodup
  refine wp_mono (addSubAt_spec dentry_ok hlen ⟨h.le, hchain, h.nodup, h.used, h.fits, h.ne, h.nulFree, h.short, h.room⟩) ?_
  rintro - s' ⟨es', rest', new, hadd, hroom⟩
  refine hQ _ s' es' rest' new hadd ?_ ?_ hroom
  · rw [hadd.head.parent, Zone.parent_setTime]
  · rw [hadd.head.time, Zone.time_setTime]
    exact ht

end

/-! ## Removing an entry -/

/-- `l` without the element at `i`, whose place the last one takes. -/
def swapRemove {α : Type} (l : List α) (i : Nat) : List α :=
  match l.getLast? with
  | some a => (l.set i a).dropLast
  | none => []

theorem swapRemove_perm {α : Type} {l : List α} {i : Nat} (hi : i < l.length) : l.Perm (l[i] :: swapRemove l i) := by
  obtain ⟨init, a, rfl⟩ : ∃ init a, l = init ++ [a] := by
    rcases List.eq_nil_or_concat' l with rfl | h
    · exact absurd hi (Nat.not_lt_zero _)
    · exact h
  have hrem : swapRemove (init ++ [a]) i = ((init ++ [a]).set i a).dropLast := by
    unfold swapRemove
    rw [List.getLast?_concat]
  rw [hrem]
  by_cases hlt : i < init.length
  · rw [List.set_append_left _ _ hlt, List.dropLast_concat, List.getElem_append_left hlt]
    have hset : (init.set i a).Perm (a :: init.eraseIdx i) := by
      rw [List.set_eq_take_append_cons_drop, if_pos hlt, List.eraseIdx_eq_take_drop_succ]
      exact List.perm_middle
    have hinit : init.Perm (init[i] :: init.eraseIdx i) := (List.getElem_cons_eraseIdx_perm hlt).symm
    refine (List.perm_append_singleton a init).trans ?_
    exact ((hinit.cons a).trans (List.Perm.swap _ _ _)).trans (hset.symm.cons _)
  · have hlast : i = init.length := by simp at hi; omega
    subst hlast
    rw [List.set_append_right _ _ (Nat.le_refl _), Nat.sub_self, List.set_cons_zero, List.dropLast_concat]
    simp

theorem swapRemove_append {α : Type} {as bs : List α} {i : Nat} (hi : i < bs.length) :
    swapRemove (as ++ bs) (as.length + i) = as ++ swapRemove bs i := by
  have hne : bs ≠ [] := List.ne_nil_of_length_pos (by omega)
  unfold swapRemove
  rw [List.getLast?_append_of_ne_nil as hne, List.getLast?_eq_some_getLast hne]
  dsimp only
  rw [List.set_append_right _ _ (by omega), Nat.add_sub_cancel_left, List.dropLast_append_of_ne_nil]
  exact List.ne_nil_of_length_pos (by rw [List.length_set]; omega)

section
variable {L : Layout} {z : Zone} {es : List Entry} {i : Nat}

/-- `moveLast` takes out entry `i`. -/
theorem moveLast_spec (hL : L.Ok) (h : Entries L z es) (hi : i < es.length) :
    ∃ z', moveLast L z i (es.length - 1) = some z' ∧ Entries L z' (swapRemove es i) ∧ SameHead L z z' ∧
      L.next z' = L.next z := by
  have hle := h.le
  have hlast : es.length - 1 < es.length := by omega
  have hrem : swapRemove es i = (es.set i (es.getLast (List.ne_nil_of_length_pos (by omega)))).dropLast := by
    unfold swapRemove
    rw [List.getLast?_eq_some_getLast (List.ne_nil_of_length_pos (by omega))]
  rw [hrem]
  obtain ⟨hid, hne, hstr, hlen⟩ := h.get hlast
  -- The zone once the last entry is copied to slot `i`.
  obtain ⟨z₁, hz₁, hslot, hw₁⟩ : ∃ z₁, moveLast L z i (es.length - 1) =
        some (L.clearName (L.setSubId z₁ (es.length - 1) 0) (es.length - 1)) ∧
      SlotIs L z₁ i (some es[es.length - 1]) ∧ SlotWrite L i z z₁ := by
    unfold moveLast
    by_cases hlt : es.length - 1 > i
    · rw [if_pos hlt, cstr?_eq hstr]
      simp only [Option.bind_eq_bind, Option.bind_some, strcpy_eq hL (show i < L.subs by omega) hlen]
      rw [hid]
      refine ⟨_, rfl, ?_, (slotWrite_setSubId _ _ _ _).trans (slotWrite_strcpy hlen)⟩
      refine slotIs_set hL (by omega) ?_ hne hstr.nulFree hlen
      rw [← hid]
      exact Bytes.int16_range _ _
    · obtain rfl : i = es.length - 1 := by omega
      rw [if_neg hlt]
      exact ⟨z, rfl, h.get hlast, fun _ _ => rfl⟩
  have hw := (slotWrite_setSubId L z₁ (es.length - 1) 0).trans slotWrite_clearName
  refine ⟨_, hz₁, ?_, ?_, ?_⟩
  · exact h.remove hi ⟨_, List.getElem?_eq_getElem hlast, hslot⟩ hw₁ (slotIs_clear hL (by omega)) hw
  · exact (hw₁.head hL (by omega)).trans (hw.head hL (by omega))
  · rw [hw.next hL (by omega), hw₁.next hL (by omega)]

end

/-- The entry `e` of the last zone is gone from the chain at `z`. -/
structure Removed (s : Store) (L : Layout) (z : Int) (es : List Entry) (rest : List Seg) (e : Entry) (s' : Store)
    (es' : List Entry) (rest' : List Seg) : Prop where
  chain : Chain s'.zones L z es' rest'
  entries : (entriesOf es rest).Perm (e :: entriesOf es' rest')
  ids : rest'.map Prod.fst = rest.map Prod.fst
  map : s'.map = s.map
  head : SameHead L (s.zones z) (s'.zones z)
  frame : ∀ i, i ≠ z → i ∉ rest.map Prod.fst → s'.zones i = s.zones i

section
variable {P : Policy} {s : Store} {L : Layout} {z : Int} {es : List Entry} {rest : List Seg} {e : Entry}

/-- `rm_sub_cont` along the chain: the entry is found in the last zone, and not before it. The last entry takes its place. -/
theorem rmSubAt_swap (hL : L.Ok) {fuel : Nat} (hfuel : rest.length < fuel) (h4 : 4 ≤ z) (h : Chain s.zones L z es rest)
    (hzones : (z :: rest.map Prod.fst).Nodup) (hnodup : ((entriesOf es rest).map Prod.snd).Nodup)
    (hmem : e ∈ lastEntries es rest) :
    wp (storeSem P) (rmSubAt L (rmSubCont fuel · e.2) z e.2 (s.zones z))
      (fun _ s' => ∃ es' rest', Removed s L z es rest e s' es' rest' ∧
        ∃ i, (entriesOf es rest)[i]? = some e ∧ entriesOf es' rest' = swapRemove (entriesOf es rest) i) s := by
  induction rest generalizing L z es fuel with
  | nil =>
    obtain ⟨k, hk, rfl⟩ := List.mem_iff_getElem.mp (show e ∈ es from hmem)
    have hids : (es.map Prod.snd).Nodup := by simpa [entriesOf] using hnodup
    have hle := h.1.le
    obtain ⟨z', hmove, hentries, hhead, hnext⟩ := moveLast_spec hL h.1 hk
    unfold rmSubAt
    rw [findSub_of_getElem h.1 hids hk rfl (Nat.zero_le _) (by omega)]
    dsimp only
    rw [if_pos h.2, runEnd_eq h.1 hk (by omega) (by omega), hmove]
    refine wp_bind.mpr (wp_ret.mpr (writeZone_spec h4 ⟨swapRemove es k, [], ⟨⟨?_, ?_⟩, ?_, rfl, rfl, ?_, fun i hi _ => ?_⟩,
      k, ?_, ?_⟩))
    · rwa [Store.zones_write_self]
    · rw [Store.zones_write_self, hnext]
      exact h.2
    · simpa [entriesOf] using swapRemove_perm hk
    · rwa [Store.zones_write_self]
    · exact Store.zones_write_of_ne _ hi
    · simp [entriesOf, hk]
    · simp [entriesOf]
  | cons seg rest ih =>
    obtain ⟨hentries, hfull, hnext, hseg, hrest⟩ := h
    obtain ⟨hz, hzones'⟩ := List.nodup_cons.mp hzones
    obtain ⟨fuel, rfl⟩ := Nat.exists_eq_succ_of_ne_zero (by omega : fuel ≠ 0)
    have hsplit : entriesOf es (seg :: rest) = es ++ entriesOf seg.2 rest := rfl
    rw [hsplit, List.map_append] at hnodup
    obtain ⟨-, hnodup', hdisj⟩ := List.nodup_append.mp hnodup
    have hnot : e.2 ∉ es.map Prod.snd := fun hin =>
      hdisj e.2 hin e.2 (List.mem_map_of_mem (lastEntries_subset e hmem)) rfl
    unfold rmSubAt
    rw [findSub_of_not_mem hentries hnot (by omega)]
    dsimp only
    rw [if_pos (by rw [hnext]; omega), hnext]
    unfold rmSubCont
    refine wp_bind.mpr (readZone_spec hseg ?_)
    refine wp_mono (ih dirZone_ok (by simpa using hfuel) hseg hrest hzones' hnodup' hmem) ?_
    rintro - s' ⟨es', rest', hrem, i, hi, hswap⟩
    have hne : z ≠ seg.1 := fun heq => hz (heq ▸ List.mem_cons_self)
    have hzone : s'.zones z = s.zones z := hrem.frame z hne fun hi => hz (List.mem_cons_of_mem _ hi)
    refine ⟨es, (seg.1, es') :: rest', ⟨⟨hzone ▸ hentries, hfull, hzone ▸ hnext, hseg, hrem.chain⟩, ?_, ?_, hrem.map, ?_,
      fun i hi hchain => ?_⟩, es.length + i, ?_, ?_⟩
    · rw [hsplit]
      exact (hrem.entries.append_left es).trans List.perm_middle
    · rw [List.map_cons, List.map_cons, hrem.ids]
    · rw [hzone]
      exact fun _ _ => rfl
    · rw [List.map_cons, List.mem_cons, not_or] at hchain
      exact hrem.frame i hchain.1 hchain.2
    · rw [hsplit, List.getElem?_append_right (Nat.le_add_right _ _), Nat.add_sub_cancel_left, hi]
    · rw [hsplit, swapRemove_append (List.getElem?_eq_some_iff.mp hi).1, ← hswap]
      rfl

theorem rmSub_swap {d : Int} (hlen : rest.length < zoneFuel) (h4 : 4 ≤ d) (h : Chain s.zones dentry d es rest)
    (hzones : (d :: rest.map Prod.fst).Nodup) (hnodup : ((entriesOf es rest).map Prod.snd).Nodup)
    (hmem : e ∈ lastEntries es rest) :
    wp (storeSem P) (rmSub d e.2) (fun _ s' => ∃ es' rest', Removed s dentry d es rest e s' es' rest' ∧
      ∃ i, (entriesOf es rest)[i]? = some e ∧ entriesOf es' rest' = swapRemove (entriesOf es rest) i) s := by
  unfold rmSub
  exact wp_bind.mpr (readZone_spec h4 (rmSubAt_swap dentry_ok hlen h4 h hzones hnodup hmem))

/-- `rm_sub` -/
theorem rmSub_spec {d : Int} (hlen : rest.length < zoneFuel) (h4 : 4 ≤ d) (h : Chain s.zones dentry d es rest)
    (hzones : (d :: rest.map Prod.fst).Nodup) (hnodup : ((entriesOf es rest).map Prod.snd).Nodup)
    (hmem : e ∈ lastEntries es rest) :
    wp (storeSem P) (rmSub d e.2) (fun _ s' => ∃ es' rest', Removed s dentry d es rest e s' es' rest') s := by
  refine wp_mono (rmSub_swap hlen h4 h hzones hnodup hmem) ?_
  rintro - s' ⟨es', rest', hrem, -⟩
  exact ⟨es', rest', hrem⟩

end

end MiniFs
