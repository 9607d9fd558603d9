import MiniFs.Theorems.AppendFile
import MiniFs.Theorems.Remove

/-! # Packed directories

`add_sub` and `rm_sub` on a directory as a whole: the list of its entries, read off the disk along the chain, gets an
entry at its end or loses one. `rm_sub` does so for the entries of the last zone only. For an entry before it
`rm_tail_sub` takes the last entry of the chain and ends without returning its id. -/

namespace MiniFs
open Interact Memory

/-- The runs that do not exhaust the bitmap. -/
def Policy.unexhausted : Policy := ⟨true, false⟩

/-! ## The listing of a directory -/

/-- The entry in slot `i`. -/
def slotEntry (L : Layout) (z : Zone) (i : Nat) : Option Entry :=
  if L.subId z i = 0 then none else some (z.cstr (L.nameOff i), L.subId z i)

/-- The entries of a zone. -/
def zoneListing (L : Layout) (z : Zone) : List Entry := (List.range L.subs).filterMap (slotEntry L z)

namespace Store

/-- The entries of the chain from zone `z` on. -/
def listingFrom (s : Store) : (fuel : Nat) → Layout → Int → List Entry
  | 0, _, _ => []
  | fuel + 1, L, z => zoneListing L (s.zones z) ++
      if L.next (s.zones z) = 0 then [] else s.listingFrom fuel dirZone (L.next (s.zones z))

/-- The entries of directory `d`. -/
def listing (s : Store) (d : Int) : List Entry := s.listingFrom zoneFuel dentry d

/-- The entries of the last zone of the chain from zone `z` on. -/
def tailFrom (s : Store) : (fuel : Nat) → Layout → Int → List Entry
  | 0, _, _ => []
  | fuel + 1, L, z => if L.next (s.zones z) = 0 then zoneListing L (s.zones z) else s.tailFrom fuel dirZone
    (L.next (s.zones z))

/-- The entries in the last zone of directory `d`. -/
def tailListing (s : Store) (d : Int) : List Entry := s.tailFrom zoneFuel dentry d

end Store

section
variable {s s' : Store} {L : Layout} {z : Zone} {d i : Int} {es : List Entry} {rest : List Seg}

theorem Entries.slotEntry_eq (h : Entries L z es) {i : Nat} (hi : i < es.length) : slotEntry L z i = some es[i] := by
  obtain ⟨hid, hne, hstr, -⟩ := h.get hi
  unfold slotEntry
  rw [hid, if_neg hne, hstr.cstr_eq]

theorem Entries.zoneListing_eq (h : Entries L z es) : zoneListing L z = es := by
  obtain ⟨k, hk⟩ := Nat.exists_eq_add_of_le h.le
  unfold zoneListing
  rw [hk, List.range_add, List.filterMap_append]
  have hused : (List.range es.length).filterMap (slotEntry L z) = es := by
    have hmap : (List.range es.length).map (slotEntry L z) = es.map some := by
      refine List.ext_getElem (by simp) fun j hj hj' => ?_
      rw [List.getElem_map, List.getElem_map, List.getElem_range]
      exact h.slotEntry_eq (by simpa using hj')
    have hid : (List.range es.length).filterMap (slotEntry L z) =
      ((List.range es.length).map (slotEntry L z)).filterMap id := by
      rw [List.filterMap_map]
      rfl
    rw [hid, hmap, List.filterMap_map]
    exact List.filterMap_some
  have hfree : ((List.range k).map (es.length + ·)).filterMap (slotEntry L z) = [] := by
    rw [List.filterMap_eq_nil_iff]
    intro j hj
    obtain ⟨m, hm, rfl⟩ := List.mem_map.mp hj
    have hlt := List.mem_range.mp hm
    unfold slotEntry
    rw [if_pos ((h.subId_eq_zero (by omega)).mpr (by omega))]
  rw [hused, hfree, List.append_nil]

theorem Chain.listingFrom_eq {z : Int} {fuel : Nat} (h : Chain s.zones L z es rest) (hfuel : rest.length < fuel) :
    s.listingFrom fuel L z = entriesOf es rest := by
  induction rest generalizing L z es fuel with
  | nil =>
    obtain ⟨fuel, rfl⟩ := Nat.exists_eq_succ_of_ne_zero (by omega : fuel ≠ 0)
    rw [Store.listingFrom, h.1.zoneListing_eq, if_pos h.2]
    rfl
  | cons seg rest ih =>
    obtain ⟨fuel, rfl⟩ := Nat.exists_eq_succ_of_ne_zero (by omega : fuel ≠ 0)
    obtain ⟨hes, -, hnext, h4, hrest⟩ := h
    rw [Store.listingFrom, hes.zoneListing_eq, hnext, if_neg (by omega), ih hrest (by simpa using hfuel)]
    rfl

theorem Chain.tailFrom_eq {z : Int} {fuel : Nat} (h : Chain s.zones L z es rest) (hfuel : rest.length < fuel) :
    s.tailFrom fuel L z = lastEntries es rest := by
  induction rest generalizing L z es fuel with
  | nil =>
    obtain ⟨fuel, rfl⟩ := Nat.exists_eq_succ_of_ne_zero (by omega : fuel ≠ 0)
    rw [Store.tailFrom, if_pos h.2, h.1.zoneListing_eq]
    rfl
  | cons seg rest ih =>
    obtain ⟨fuel, rfl⟩ := Nat.exists_eq_succ_of_ne_zero (by omega : fuel ≠ 0)
    obtain ⟨-, -, hnext, h4, hrest⟩ := h
    rw [Store.tailFrom, hnext, if_neg (by omega), ih hrest (by simpa using hfuel)]
    rfl

end

/-! ## Packed directories -/

/-- The chain of directory `d`: distinct zones in use, and no free slot before a used one. -/
structure DirChain (s : Store) (d : Int) (es : List Entry) (rest : List Seg) : Prop where
  le : 4 ≤ d
  chain : Chain s.zones dentry d es rest
  zones : (d :: rest.map Prod.fst).Nodup
  used : ∀ i ∈ d :: rest.map Prod.fst, s.Used i

/-- The entries have ids of their own that are neither the root's nor below it. -/
structure PackedDir (s : Store) (d : Int) (es : List Entry) (rest : List Seg) : Prop extends DirChain s d es rest where
  ids : ((entriesOf es rest).map Prod.snd).Nodup
  five : ∀ e ∈ entriesOf es rest, 5 ≤ e.2

section
variable {P : Policy} {s s' : Store} {d id : Int} {es es' : List Entry} {rest rest' : List Seg} {name : Str} {e : Entry}

theorem DirChain.length_rest (h : DirChain s d es rest) : rest.length < zoneFuel := by
  have hle : (rest.map Prod.fst).length ≤ 1024 := length_le_of_used (s := s) (List.nodup_cons.mp h.zones).2 fun z hz => by
    have := h.chain.le z hz
    exact ⟨by omega, h.used z (List.mem_cons_of_mem _ hz)⟩
  rw [List.length_map] at hle
  unfold zoneFuel
  omega

theorem DirChain.listing_eq (h : DirChain s d es rest) : s.listing d = entriesOf es rest :=
  h.chain.listingFrom_eq h.length_rest

theorem DirChain.tailListing_eq (h : DirChain s d es rest) : s.tailListing d = lastEntries es rest :=
  h.chain.tailFrom_eq h.length_rest

end

/-! ## `add_sub` -/

/-- The slots of a chain are full up to its last zone. -/
theorem Chain.length_entries {zones : Int → Zone} {L : Layout} {z : Int} {es : List Entry} {rest : List Seg}
    (h : Chain zones L z es rest) : (entriesOf es rest).length + lastSubs L rest =
      L.subs + dirZone.subs * rest.length + (lastEntries es rest).length := by
  induction rest generalizing L z es with
  | nil => simp [entriesOf, lastSubs, lastEntries, Nat.add_comm]
  | cons seg rest ih =>
    obtain ⟨-, hfull, -, -, hrest⟩ := h
    have hsplit : entriesOf es (seg :: rest) = es ++ entriesOf seg.2 rest := rfl
    have hlast : lastEntries es (seg :: rest) = lastEntries seg.2 rest := rfl
    have hsubs : lastSubs dirZone rest = dirZone.subs := by
      unfold lastSubs
      rw [ite_self]
    have hmul : dirZone.subs * (seg :: rest).length = dirZone.subs * rest.length + dirZone.subs := Nat.mul_succ _ _
    have := ih hrest
    rw [hsubs] at this
    rw [hsplit, hlast, List.length_append, hfull, hmul, lastSubs, if_neg (List.cons_ne_nil _ _)]
    omega

theorem Chain.lastEntries_le {zones : Int → Zone} {L : Layout} {z : Int} {es : List Entry} {rest : List Seg}
    (h : Chain zones L z es rest) : (lastEntries es rest).length ≤ lastSubs L rest := by
  induction rest generalizing L z es with
  | nil => exact h.1.le
  | cons seg rest ih =>
    have hle := ih h.2.2.2.2
    unfold lastSubs at hle ⊢
    rw [ite_self] at hle
    rw [if_neg (List.cons_ne_nil _ _)]
    exact hle

section
variable {P : Policy} {s s' : Store} {d id : Int} {es : List Entry} {rest : List Seg} {name : Str} {e : Entry}

/-- The last zone is full when the dentry is, or so many dir_zones after it. -/
theorem Chain.full_iff (h : Chain s.zones dentry d es rest) (htail : ∀ seg ∈ rest, seg.2 ≠ []) :
    (lastEntries es rest).length < lastSubs dentry rest ↔
      ¬(4 ≤ (entriesOf es rest).length ∧ ((entriesOf es rest).length - 4) % 5 = 0) := by
  have hlen := h.length_entries
  have hle := h.lastEntries_le
  have hdentry : dentry.subs = 4 := rfl
  have hdirZone : dirZone.subs = 5 := rfl
  cases rest with
  | nil =>
    simp only [lastSubs, if_pos, hdentry, hdirZone, List.length_nil, Nat.mul_zero, Nat.add_zero] at hlen hle ⊢
    omega
  | cons seg rest =>
    have hpos : 0 < (lastEntries es (seg :: rest)).length := by
      clear hlen hle h
      induction rest generalizing es seg with
      | nil => exact List.length_pos_of_ne_nil (htail seg List.mem_cons_self)
      | cons seg' rest ih => exact @ih seg.2 seg' fun sg hsg => htail sg (List.mem_cons_of_mem _ hsg)
    simp only [lastSubs, if_neg (List.cons_ne_nil _ _), hdentry, hdirZone, List.length_cons] at hlen hle ⊢
    omega

/-- `add_sub` on a chain, with what becomes of each zone. -/
theorem DirChain.add (h : DirChain s d es rest) (hid : 4 ≤ id ∧ id < 2 ^ 15) (hname : NulFree name) (hlen : name.length ≤ 9)
    (hroom : s.Room P (if (lastEntries es rest).length < lastSubs dentry rest then 0 else 1)) :
    wp (storeSem P) (addSub d id name) (fun _ s' => ∃ es' rest' new now, DirChain s' d es' rest' ∧
      Added s dentry d ((s.zones d).setTime now) es rest (name, id) s' es' rest' new) s := by
  have hadd : Addable P s dentry d (s.zones d) es rest (name, id) 0 := by
    refine ⟨h.le, ?_, h.zones, h.used, ⟨by omega, by omega⟩, by omega, hname, hlen, (Nat.zero_add _).symm ▸ hroom⟩
    rw [Store.write_self]
    exact h.chain
  refine addSub_spec (e := (name, id)) hadd h.length_rest fun now s' es' rest' new hadded _ _ _ => ?_
  have hids : d :: rest'.map Prod.fst = (d :: rest.map Prod.fst) ++ new := by rw [hadded.ids, List.cons_append]
  refine ⟨es', rest', new, now, ⟨h.le, hadded.chain, ?_, ?_⟩, hadded⟩
  · rw [hids]
    exact hadded.takes.nodup_append h.zones h.used
  · rw [hids]
    exact hadded.takes.used_append h.used

end

/-- `add_sub` puts the entry at the end of the listing. It takes a new zone exactly when the last one is full, and
    changes the last zone and the time of the dentry. -/
theorem add_sub_correct (s : Store) (d id : Int) (name : Str) (es : List Entry) (rest : List Seg) (h : DirChain s d es rest)
    (htail : ∀ seg ∈ rest, seg.2 ≠ []) (hid : 5 ≤ id ∧ id < 2 ^ 15) (hname : NulFree name)
    (hlen : 1 ≤ name.length ∧ name.length ≤ 9) :
    wp (storeSem .unexhausted) (addSub d id name) (fun _ s' => ∃ es' rest' new now, DirChain s' d es' rest' ∧
      (∀ seg ∈ rest', seg.2 ≠ []) ∧ s'.listing d = s.listing d ++ [(name, id)] ∧
      rest'.map Prod.fst = rest.map Prod.fst ++ new ∧ s.Takes new s' ∧
      new.length = (if 4 ≤ (s.listing d).length ∧ ((s.listing d).length - 4) % 5 = 0 then 1 else 0) ∧
      ∀ i, i ≠ lastSeg d rest → i ∉ new → s'.zones i = if i = d then (s.zones d).setTime now else s.zones i) s := by
  refine wp_mono (h.add ⟨by omega, hid.2⟩ hname hlen.2 (Or.inl rfl)) ?_
  rintro - s' ⟨es', rest', new, now, hchain', hadded⟩
  refine ⟨es', rest', new, now, hchain', hadded.tail htail, ?_, hadded.ids, hadded.takes, ?_, fun i hi hnew => ?_⟩
  · rw [hchain'.listing_eq, h.listing_eq, hadded.entries]
  · rw [h.listing_eq, hadded.count]
    have hfull := h.chain.full_iff htail
    by_cases hlt : (lastEntries es rest).length < lastSubs dentry rest
    · rw [if_pos hlt, if_neg (hfull.mp hlt)]
    · rw [if_neg hlt, if_pos (not_not.mp (mt hfull.mpr hlt))]
  · rw [hadded.prior i hi hnew]
    rfl

/-- The entries one after the other, each with a new id. -/
def addAll (d : Int) : List Entry → Store → Option Store
  | [], s => some s
  | e :: es, s =>
    if ∀ e' ∈ s.listing d, e'.2 ≠ e.2 then
      match storeMachine.exec (addSub d e.2 e.1) s with
      | some (_, s') => addAll d es s'
      | none => none
    else none

/-- A root directory with nine entries: four in the dentry, and five after them in a dir_zone. -/
def nineEntries : List Entry :=
  [(lit "a", 100), (lit "b", 101), (lit "c", 102), (lit "d", 103), (lit "e", 104), (lit "f", 105), (lit "g", 106),
    (lit "h", 107), (lit "i", 108)]

def nineDisk : Store := (addAll 4 nineEntries emptyDisk).getD emptyDisk

/-- The tenth entry takes a second dir_zone. -/
theorem add_sub_correct_tenth : ∃ (s' : Store) (new : List Int), nineDisk.Takes new s' ∧ new.length = 1 ∧
    s'.listing 4 = nineEntries ++ [(lit "j", 109)] := by
  have hchain : DirChain nineDisk 4 (nineEntries.take 4) [(5, nineEntries.drop 4)] := by
    refine ⟨by decide, by decide +kernel, by decide, fun i hi => ?_⟩
    have hused : ∀ i ∈ [(4 : Int), 5], ∃ b ∈ [dOccupied, fOccupied], nineDisk.state i = some b := by decide +kernel
    have hne : ∀ b ∈ [dOccupied, fOccupied], b ≠ unoccupied := by decide +kernel
    obtain ⟨b, hb, hs⟩ := hused i hi
    exact ⟨b, hs, hne b hb⟩
  have hlist : nineDisk.listing 4 = nineEntries := by decide +kernel
  have hwp := add_sub_correct nineDisk 4 109 (lit "j") _ _ hchain (by decide) (by decide) (by decide) (by decide)
  rw [hlist] at hwp
  obtain ⟨⟨_, s'⟩, hs⟩ := Option.isSome_iff_exists.mp
    (show (storeMachine.exec (addSub 4 109 (lit "j")) nineDisk).isSome by decide +kernel)
  obtain ⟨_, _, new, _, -, -, hadded, -, htakes, hlen, -⟩ := wlp_of_wp hwp _ _ ((storeMachine_of _).runs hs)
  exact ⟨s', new, htakes, hlen, hadded⟩

/-! ## `rm_sub` -/

/-- What `rm_sub` is to do with entry `id` of directory `d`. -/
structure Dropped (s : Store) (d id : Int) (s' : Store) : Prop where
  packed : ∃ es rest, PackedDir s' d es rest
  listed : ∀ e ∈ s.listing d, e.2 = id → (s.listing d).Perm (e :: s'.listing d)
  unlisted : (∀ e ∈ s.listing d, e.2 ≠ id) → s' = s

section
variable {P : Policy} {s s' : Store} {L : Layout} {d id z : Int} {es : List Entry} {rest : List Seg} {e : Entry}

/-- Nothing happens to a chain without the entry. -/
theorem rmSubAt_unlisted {fuel : Nat} (hfuel : rest.length < fuel) (h : Chain s.zones L z es rest)
    (hnot : id ∉ (entriesOf es rest).map Prod.snd) :
    wp (storeSem P) (rmSubAt L (rmSubCont fuel · id) z id (s.zones z)) (fun _ s' => s' = s) s := by
  induction rest generalizing L z es fuel with
  | nil =>
    have hnot : id ∉ es.map Prod.snd := by simpa [entriesOf] using hnot
    unfold rmSubAt
    rw [findSub_of_not_mem h.1 hnot (by omega)]
    dsimp only
    rw [if_neg (not_not.mpr h.2)]
    exact wp_ret.mpr rfl
  | cons seg rest ih =>
    obtain ⟨hes, -, hnext, h4, hrest⟩ := h
    obtain ⟨fuel, rfl⟩ := Nat.exists_eq_succ_of_ne_zero (by omega : fuel ≠ 0)
    have hsplit : entriesOf es (seg :: rest) = es ++ entriesOf seg.2 rest := rfl
    rw [hsplit, List.map_append, List.mem_append, not_or] at hnot
    unfold rmSubAt
    rw [findSub_of_not_mem hes hnot.1 (by omega)]
    dsimp only
    rw [if_pos (by rw [hnext]; omega), hnext]
    unfold rmSubCont
    exact wp_bind.mpr (readZone_spec h4 (ih (by simpa using hfuel) hrest hnot.2))

theorem PackedDir.rm (h : PackedDir s d es rest) (hok : (∃ e ∈ s.listing d, e.2 = id) → ∃ e ∈ s.tailListing d, e.2 = id) :
    wp (storeSem P) (rmSub d id) (fun _ s' => Dropped s d id s') s := by
  have hlist := h.listing_eq
  rw [hlist, h.tailListing_eq] at hok
  by_cases hin : ∃ e ∈ entriesOf es rest, e.2 = id
  · obtain ⟨e, he, rfl⟩ := hok hin
    refine wp_mono (rmSub_spec h.length_rest h.le h.chain h.zones h.ids he) ?_
    rintro - s' ⟨es', rest', hrem⟩
    have hids : ((e :: entriesOf es' rest').map Prod.snd).Nodup := (hrem.entries.map _).nodup_iff.mp h.ids
    have hpacked : PackedDir s' d es' rest' := by
      refine ⟨⟨h.le, hrem.chain, hrem.ids ▸ h.zones, fun i hi => ?_⟩, (List.nodup_cons.mp hids).2, fun e' he' => ?_⟩
      · obtain ⟨b, hb, hne⟩ := h.used i (hrem.ids ▸ hi)
        exact ⟨b, by unfold Store.state; rw [hrem.map]; exact hb, hne⟩
      · exact h.five e' (hrem.entries.mem_iff.mpr (List.mem_cons_of_mem _ he'))
    refine ⟨⟨es', rest', hpacked⟩, fun e' he' heq => ?_, fun hno => ?_⟩
    · rw [hlist] at he' ⊢
      have hsame : e' = e := by
        rcases List.mem_cons.mp (hrem.entries.mem_iff.mp he') with rfl | hin'
        · rfl
        · exact absurd (List.mem_map_of_mem hin') (heq ▸ (List.nodup_cons.mp hids).1)
      rw [hpacked.listing_eq, hsame]
      exact hrem.entries
    · exact absurd rfl (hno e (hlist ▸ lastEntries_subset e he))
  · have hnot : id ∉ (entriesOf es rest).map Prod.snd := fun hmem => by
      obtain ⟨e, he, heq⟩ := List.mem_map.mp hmem
      exact hin ⟨e, he, heq⟩
    unfold rmSub
    refine wp_bind.mpr (readZone_spec h.le (wp_mono (rmSubAt_unlisted h.length_rest h.chain hnot) ?_))
    rintro - s' rfl
    refine ⟨⟨es, rest, h⟩, fun e he heq => ?_, fun _ => rfl⟩
    exact absurd ⟨e, hlist ▸ he, heq⟩ hin

/-! ### An entry that is not in the last zone -/

/-- No chain from zone `z` on has only ids from 5 on. -/
def Damaged (s : Store) (L : Layout) (z : Int) : Prop :=
  ∀ es rest, Chain s.zones L z es rest → ∃ e ∈ entriesOf es rest, e.2 < 5

theorem lastUsed_some {zone : Zone} {n k : Nat} (h : lastUsed L zone n = some k) : k < n ∧ L.subId zone k ≠ 0 := by
  induction n with
  | zero => cases h
  | succ n ih =>
    unfold lastUsed at h
    split at h
    · have := ih h
      exact ⟨by omega, this.2⟩
    · rename_i hne
      cases h
      exact ⟨Nat.lt_succ_self _, hne⟩

/-- `rm_tail_sub` may return -1, whatever it takes. -/
theorem may_rmTailSub {fuel : Nat} (hfuel : rest.length < fuel) (h4 : 4 ≤ z) (h : Chain s.zones dirZone z es rest) :
    may (storeSem P) (rmTailSub fuel z) (fun r s' => r.1 = -1 ∧ (∀ nm, r.2 = some nm → nm.length ≤ 9) ∧
      ∀ i, i ≠ z → i ∉ rest.map Prod.fst → s'.zones i = s.zones i) s := by
  induction rest generalizing z es fuel with
  | nil =>
    obtain ⟨fuel, rfl⟩ := Nat.exists_eq_succ_of_ne_zero (by omega : fuel ≠ 0)
    unfold rmTailSub
    refine may_bind (may_readZone h4 ?_)
    dsimp only
    rw [if_pos h.2]
    cases hlast : lastUsed dirZone (s.zones z) dirZone.subs with
    | none => exact may_ret ⟨rfl, nofun, fun _ _ _ => rfl⟩
    | some k =>
      obtain ⟨hk, hne⟩ := lastUsed_some hlast
      have hlt : k < es.length := Nat.not_le.mp fun hle => hne ((h.1.subId_eq_zero hk).mpr hle)
      obtain ⟨-, -, hstr, hlen⟩ := h.1.get hlt
      dsimp only
      rw [cstr?_eq hstr]
      refine may_bind (may_ret (may_bind (may_writeZone h4 (may_bind
        (may_unset (-1) (may_ret ⟨rfl, fun nm hnm => ?_, ?_⟩))))))
      · cases hnm
        exact hlen
      · exact fun i hi _ => Store.zones_write_of_ne _ hi
  | cons seg rest ih =>
    obtain ⟨fuel, rfl⟩ := Nat.exists_eq_succ_of_ne_zero (by omega : fuel ≠ 0)
    obtain ⟨hes, -, hnext, hseg, hrest⟩ := h
    unfold rmTailSub
    refine may_bind (may_readZone h4 ?_)
    dsimp only
    rw [if_neg (by rw [hnext]; omega), hnext]
    refine may_mono (ih (by simpa using hfuel) hseg hrest) ?_
    rintro r s' ⟨hr, hname, hframe⟩
    refine ⟨hr, hname, fun i hi hnot => ?_⟩
    rw [List.map_cons, List.mem_cons, not_or] at hnot
    exact hframe i hnot.1 hnot.2

theorem subId_neg {zone : Zone} {k : Nat} (hL : L.Ok) (hk : k < L.subs) : L.subId (L.setSubId zone k (-1)) k = -1 :=
  subId_setSubId hL hk ⟨by decide, by decide⟩

/-- The slot of an entry before the last zone may get the id -1. -/
theorem may_rmSubAt (hL : L.Ok) {fuel : Nat} (hfuel : rest.length < fuel) (hle : rest.length < zoneFuel) (h4 : 4 ≤ z)
    (h : Chain s.zones L z es rest) (hzones : (z :: rest.map Prod.fst).Nodup)
    (hnodup : ((entriesOf es rest).map Prod.snd).Nodup) (hmem : e ∈ entriesOf es rest)
    (hnot : e ∉ lastEntries es rest) :
    may (storeSem P) (rmSubAt L (rmSubCont fuel · e.2) z e.2 (s.zones z)) (fun _ s' => Damaged s' L z ∧
      ∀ i, i ≠ z → i ∉ rest.map Prod.fst → s'.zones i = s.zones i) s := by
  induction rest generalizing L z es fuel with
  | nil =>
    have hmem' : e ∈ es := by simpa [entriesOf] using hmem
    exact absurd hmem' hnot
  | cons seg rest ih =>
    obtain ⟨hes, hfull, hnext, hseg, hrest⟩ := h
    obtain ⟨hz, hzones'⟩ := List.nodup_cons.mp hzones
    have hsplit : entriesOf es (seg :: rest) = es ++ entriesOf seg.2 rest := rfl
    rw [hsplit, List.map_append] at hnodup
    obtain ⟨hids, hnodup', hdisj⟩ := List.nodup_append.mp hnodup
    have hlen : rest.length < zoneFuel := Nat.lt_of_succ_lt hle
    rw [hsplit] at hmem
    unfold rmSubAt
    by_cases hin : e ∈ es
    · -- The entry is found in this zone: `rm_tail_sub` fills its slot.
      obtain ⟨k, hk, rfl⟩ := List.mem_iff_getElem.mp hin
      rw [findSub_of_getElem hes hids hk rfl (Nat.zero_le _) (by omega)]
      dsimp only
      rw [if_neg (by rw [hnext]; omega), hnext]
      refine may_bind (may_mono (may_rmTailSub hlen hseg hrest) ?_)
      rintro ⟨r, nm⟩ s₁ ⟨rfl, hname, hframe⟩
      have hwrite : ∀ zone : Zone, may (storeSem P) (Fs.writeZone z (L.setSubId zone k (-1))) (fun _ s' => Damaged s' L z ∧
          ∀ i, i ≠ z → i ∉ (seg :: rest).map Prod.fst → s'.zones i = s.zones i) s₁ := by
        refine fun zone => may_writeZone h4 ⟨fun es' rest' hch => ?_, fun i hi hchain => ?_⟩
        · have hslot := hch.entries.slot k (by omega)
          rw [Store.zones_write_self] at hslot
          cases hget : es'[k]? with
          | none =>
            rw [hget] at hslot
            exact absurd (hslot.1.symm.trans (subId_neg hL (by omega))) (by decide)
          | some e' =>
            rw [hget] at hslot
            have hid : e'.2 = -1 := hslot.1.symm.trans (subId_neg hL (by omega))
            exact ⟨e', List.mem_append_left _ (List.mem_of_getElem? hget), by omega⟩
        · rw [List.map_cons, List.mem_cons, not_or] at hchain
          rw [Store.zones_write_of_ne _ hi, hframe i hchain.1 hchain.2]
      cases nm with
      | none => exact may_bind (may_ret (hwrite _))
      | some nm =>
        dsimp only
        rw [strcpy_eq hL (show k < L.subs by omega) (hname nm rfl)]
        exact may_bind (may_ret (hwrite _))
    · -- The entry is further on in the chain.
      have hmem' := (List.mem_append.mp hmem).resolve_left hin
      have hnot' : e.2 ∉ es.map Prod.snd := fun hin' => hdisj e.2 hin' e.2 (List.mem_map_of_mem hmem') rfl
      obtain ⟨fuel, rfl⟩ := Nat.exists_eq_succ_of_ne_zero (by omega : fuel ≠ 0)
      rw [findSub_of_not_mem hes hnot' (by omega)]
      dsimp only
      rw [if_pos (by rw [hnext]; omega), hnext]
      unfold rmSubCont
      refine may_bind (may_readZone hseg ?_)
      refine may_mono (ih dirZone_ok (by simpa using hfuel) hlen hseg hrest hzones' hnodup' hmem' hnot) ?_
      rintro - s' ⟨hdam, hframe⟩
      have hzone : s'.zones z = s.zones z :=
        hframe z (fun heq => hz (heq ▸ List.mem_cons_self)) fun hi => hz (List.mem_cons_of_mem _ hi)
      refine ⟨fun es' rest' hch => ?_, fun i hi hchain => ?_⟩
      · cases rest' with
        | nil =>
          have hzero := hch.2
          rw [hzone, hnext] at hzero
          omega
        | cons seg' rest' =>
          obtain ⟨-, -, hnext', -, hrest'⟩ := hch
          rw [hzone, hnext] at hnext'
          obtain ⟨e', he', hlt⟩ := hdam seg'.2 rest' (hnext' ▸ hrest')
          exact ⟨e', List.mem_append_right _ he', hlt⟩
      · rw [List.map_cons, List.mem_cons, not_or] at hchain
        exact hframe i hchain.1 hchain.2

theorem PackedDir.may_rm (h : PackedDir s d es rest) (hmem : e ∈ entriesOf es rest) (hnot : e ∉ lastEntries es rest) :
    may (storeSem P) (rmSub d e.2) (fun _ s' => Damaged s' dentry d) s := by
  unfold rmSub
  refine may_bind (may_readZone h.le ?_)
  refine may_mono (may_rmSubAt dentry_ok h.length_rest h.length_rest h.le h.chain h.zones h.ids hmem hnot) ?_
  exact fun _ s' hs => hs.1

theorem PackedDir.rm_iff (h : PackedDir s d es rest) :
    wp (storeSem P) (rmSub d id) (fun _ s' => Dropped s d id s') s ↔
      ((∃ e ∈ s.listing d, e.2 = id) → ∃ e ∈ s.tailListing d, e.2 = id) := by
  refine ⟨fun hwp => ?_, h.rm⟩
  rintro ⟨e, he, rfl⟩
  by_contra hno
  rw [h.listing_eq] at he
  rw [h.tailListing_eq] at hno
  obtain ⟨-, s', hdropped, hdam⟩ := may_of_wp hwp (h.may_rm he fun hin => hno ⟨e, hin, rfl⟩)
  obtain ⟨es', rest', hpacked'⟩ := hdropped.packed
  obtain ⟨e', he', hlt⟩ := hdam es' rest' hpacked'.chain
  have := hpacked'.five e' he'
  omega

/-! ### Runs -/

/-- The states of directory `d` between calls of `add_sub` and `rm_sub`, as long as what is removed is in the last zone
    or is not listed. -/
inductive Edited (P : Policy) (d : Int) : Store → Prop where
  | empty {s : Store} (h4 : 4 ≤ d) (used : s.Used d) (chain : Chain s.zones dentry d [] []) : Edited P d s
  | add {s : Store} {id : Int} {name : Str} {s' : Store} (h : Edited P d s) (hid : 5 ≤ id ∧ id < 2 ^ 15)
      (fresh : ∀ e ∈ s.listing d, e.2 ≠ id) (nulFree : NulFree name) (short : 1 ≤ name.length ∧ name.length ≤ 9)
      (run : Runs (storeSem P) (addSub d id name) s (some ((), s'))) : Edited P d s'
  | rm {s : Store} {id : Int} {s' : Store} (h : Edited P d s)
      (ok : (∃ e ∈ s.listing d, e.2 = id) → ∃ e ∈ s.tailListing d, e.2 = id)
      (run : Runs (storeSem P) (rmSub d id) s (some ((), s'))) : Edited P d s'

theorem Edited.packed (h : Edited .unexhausted d s) : ∃ es rest, PackedDir s d es rest := by
  induction h with
  | empty h4 used chain =>
    refine ⟨[], [], ⟨h4, chain, List.nodup_singleton _, fun i hi => List.mem_singleton.mp hi ▸ used⟩, List.nodup_nil, ?_⟩
    exact fun e he => absurd he List.not_mem_nil
  | @add s id name s' h hid fresh nulFree short run ih =>
    obtain ⟨es, rest, hpacked⟩ := ih
    obtain ⟨es', rest', new, now, hchain, hadded⟩ :=
      wlp_of_wp (hpacked.add ⟨by omega, hid.2⟩ nulFree short.2 (Or.inl rfl)) _ _ run
    have hids := hpacked.ids
    rw [hpacked.listing_eq] at fresh
    refine ⟨es', rest', hchain, ?_, fun e he => ?_⟩
    · rw [hadded.entries, List.map_append]
      refine List.nodup_append.mpr ⟨hids, List.nodup_singleton _, ?_⟩
      rintro a ha b hb rfl
      obtain ⟨e, he, hea⟩ := List.mem_map.mp ha
      exact fresh e he (hea.trans (List.mem_singleton.mp hb))
    · rw [hadded.entries] at he
      rcases List.mem_append.mp he with he | he
      · exact hpacked.five e he
      · rw [List.mem_singleton.mp he]
        exact hid.1
  | @rm s id s' h ok run ih =>
    obtain ⟨es, rest, hpacked⟩ := ih
    exact (wlp_of_wp (hpacked.rm ok) _ _ run).packed

end

/-- `rm_sub` takes out an entry and nothing else exactly when the entry is in the last zone, or there is none. -/
theorem rm_sub_iff (s : Store) (d id : Int) (h : Edited .unexhausted d s) :
    wp (storeSem .unexhausted) (rmSub d id) (fun _ s' => Dropped s d id s') s ↔
      ((∃ e ∈ s.listing d, e.2 = id) → ∃ e ∈ s.tailListing d, e.2 = id) := by
  obtain ⟨es, rest, hpacked⟩ := h.packed
  exact hpacked.rm_iff

theorem Edited.addAll {P : Policy} {d : Int} {es : List Entry} {s s' : Store} (h : Edited P d s)
    (hes : ∀ e ∈ es, (5 ≤ e.2 ∧ e.2 < 2 ^ 15) ∧ NulFree e.1 ∧ 1 ≤ e.1.length ∧ e.1.length ≤ 9)
    (hrun : MiniFs.addAll d es s = some s') : Edited P d s' := by
  induction es generalizing s with
  | nil =>
    cases hrun
    exact h
  | cons e es ih =>
    obtain ⟨hid, hnul, hshort⟩ := hes e List.mem_cons_self
    unfold MiniFs.addAll at hrun
    split at hrun
    · rename_i hfresh
      split at hrun
      · rename_i s₁ hexec
        exact ih (h.add hid hfresh hnul hshort ((storeMachine_of P).runs hexec))
          (fun e' he' => hes e' (List.mem_cons_of_mem _ he')) hrun
      · cases hrun
    · cases hrun

theorem emptyDisk_edited : Edited .unexhausted 4 emptyDisk :=
  .empty (by decide) ⟨dOccupied, by decide +kernel, by decide⟩ ⟨entries_blank, Bytes.int16_zero _⟩

/-- Five entries: four in the dentry, and one after them in a dir_zone. -/
def fiveEntries : List Entry := [(lit "a", 100), (lit "b", 101), (lit "c", 102), (lit "d", 103), (lit "e", 104)]

theorem fiveEntries_edited : ∃ s, Edited .unexhausted 4 s ∧ s.listing 4 = fiveEntries ∧
    s.tailListing 4 = [(lit "e", 104)] := by
  have hdec : (addAll 4 fiveEntries emptyDisk).map (fun s => (s.listing 4, s.tailListing 4)) =
      some (fiveEntries, [(lit "e", 104)]) := by decide +kernel
  obtain ⟨s, hs, heq⟩ := Option.map_eq_some_iff.mp hdec
  exact ⟨s, emptyDisk_edited.addAll (by decide) hs, (Prod.mk.inj heq).1, (Prod.mk.inj heq).2⟩

theorem rm_sub_iff_last : ∃ s : Store, s.listing 4 = fiveEntries ∧ wp (storeSem .unexhausted) (rmSub 4 104)
    (fun _ s' => Dropped s 4 104 s') s := by
  obtain ⟨s, hs, hlist, htail⟩ := fiveEntries_edited
  exact ⟨s, hlist, (rm_sub_iff s 4 104 hs).mpr fun _ => ⟨_, htail ▸ List.mem_singleton.mpr rfl, rfl⟩⟩

/-- The first of five entries is not removed. -/
theorem rm_sub_chained : ¬∀ s d id, Edited .unexhausted d s → (∃ e ∈ s.listing d, e.2 = id) →
    wp (storeSem .unexhausted) (rmSub d id) (fun _ s' => Dropped s d id s') s := by
  intro hall
  obtain ⟨s, hs, hlist, htail⟩ := fiveEntries_edited
  obtain ⟨es, rest, hpacked⟩ := hs.packed
  have hlisted : ∃ e ∈ s.listing 4, e.2 = 100 := ⟨(lit "a", 100), by rw [hlist]; decide, rfl⟩
  obtain ⟨e, he, hid⟩ := hpacked.rm_iff.mp (hall s 4 100 hs hlisted) hlisted
  rw [htail, List.mem_singleton] at he
  rw [he] at hid
  exact absurd hid (by decide)

end MiniFs
