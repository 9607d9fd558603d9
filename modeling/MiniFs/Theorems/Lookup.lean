import MiniFs.Theorems.Directory

/-! # Path lookup

On a store whose directories are well formed, `get_path` has one result: `lookup` says which. It reads the four
slots of a dentry, and where the dentry has a free slot the empty name is the name of that slot. -/

namespace MiniFs
open Interact Memory

/-! ## One component -/

namespace Store

/-- The id in the first slot of dentry `id` with that name. -/
def lookupSub {nb : Nat} (s : Store nb) (id : Int) (name : Str) : Option Int :=
  (scanSubs (frame (s.zones id) fun _ => 0) name dentry.subs 0).map (dentry.subId (s.zones id))

/-- What `get_path_from_root` returns. -/
def walk (s : Store) : (fuel : Nat) → (curr : PathT) → (path : Str) → Option PathT × Str
  | 0, _, path => (none, path)
  | fuel + 1, curr, path =>
    if path = [] ∨ path = lit "." then (some curr, path)
    else if path = lit ".." then (curr.prev, path)
    else if path.take 2 = lit "./" then
      let r := s.walk fuel curr (path.drop 2)
      (r.1, path.take 2 ++ r.2)
    else if path.take 3 = lit "../" then
      match curr.prev with
      | none => (none, path)
      | some prev =>
        let r := s.walk fuel prev (path.drop 3)
        (r.1, path.take 3 ++ r.2)
    else if s.state curr.id ≠ some dOccupied then (none, path)
    else
      let name := path.takeWhile (· ≠ slash)
      match s.lookupSub curr.id name with
      | none => (none, name)
      | some id =>
        if name.length < path.length then ((s.walk fuel (.node id curr) (path.drop (name.length + 1))).1, name)
        else (some (.node id curr), name)

/-- What `get_path` returns. -/
def lookup (s : Store) (pwd : PathT) (path : Str) : Option PathT × Str :=
  match path with
  | [] => (some pwd, [])
  | c :: rest =>
    if c = slash then
      let r := s.walk (rest.length + 1) .root rest
      (r.1, slash :: r.2)
    else s.walk (path.length + 1) pwd path

/-- Every directory is well formed, and its entries are inside the bitmap. -/
def Dirs (s : Store) : Prop :=
  ∀ id, s.state id = some dOccupied → ∃ es, Entries dentry (s.zones id) es ∧ ∀ e ∈ es, e.2 < 1024

end Store

theorem takeWhile_of_not_mem {path : Str} (h : slash ∉ path) : path.takeWhile (· ≠ slash) = path := by
  rw [List.takeWhile_eq_self_iff]
  intro c hc
  simp only [decide_eq_true_eq]
  rintro rfl
  exact h hc

/-- The ids of the chain are inside the bitmap. -/
def PathT.Below (p : PathT) : Prop := ∀ id ∈ p.ids, id < 1024

section
variable {z : Zone} {name nm : Str} {es : List Entry} {above : Nat → Byte} {off i n m : Nat}

theorem frame_eq (h : i < 64) : frame z above i = z.get i := if_pos h

/-- A comparison with a string of the zone does not look past the zone. -/
theorem eqStr_frame (h : z.HasStr off nm) (hname : NulFree name) : eqStr (frame z above) off name = decide (name = nm) := by
  have hfits := h.fits
  rw [Bool.eq_iff_iff, eqStr_iff, decide_eq_true_iff]
  constructor
  · rintro ⟨hbytes, hnul⟩
    -- Neither string is a proper prefix of the other, as the terminator of one would be a character of the other.
    have hlen : name.length = nm.length := by
      rcases Nat.lt_trichotomy name.length nm.length with hlt | heq | hgt
      · rw [frame_eq (by omega), h.bytes _ hlt, List.getD_eq_getElem?_getD, List.getElem?_eq_getElem hlt] at hnul
        exact absurd hnul (h.nulFree _ (List.getElem_mem hlt))
      · exact heq
      · have hb := hbytes _ hgt
        rw [frame_eq (by omega), h.nul, List.getD_eq_getElem?_getD, List.getElem?_eq_getElem hgt] at hb
        exact absurd hb.symm (hname _ (List.getElem_mem hgt))
    refine List.ext_getElem hlen fun k hk hk' => ?_
    have hb := hbytes k hk
    rw [frame_eq (by omega), h.bytes k hk', List.getD_eq_getElem?_getD, List.getD_eq_getElem?_getD,
      List.getElem?_eq_getElem hk, List.getElem?_eq_getElem hk'] at hb
    exact hb.symm
  · rintro rfl
    refine ⟨fun k hk => ?_, ?_⟩
    · rw [frame_eq (by omega), h.bytes k hk]
    · rw [frame_eq (by omega), h.nul]

theorem scanSubs_add (mem : Nat → Byte) : scanSubs mem name (n + m) i =
    (scanSubs mem name n i).or (scanSubs mem name m (i + n)) := by
  induction n generalizing i with
  | zero => simp [scanSubs]
  | succ n ih =>
    rw [Nat.succ_add, scanSubs, scanSubs]
    split
    · rfl
    · rw [ih, Nat.add_right_comm, Nat.add_assoc]

theorem le_of_scanSubs {mem : Nat → Byte} {k : Nat} (h : scanSubs mem name n i = some k) : i ≤ k ∧ k < i + n := by
  induction n generalizing i with
  | zero => cases h
  | succ n ih =>
    unfold scanSubs at h
    split at h
    · cases h
      omega
    · have := ih h
      omega

/-- The name that slot `i` shows. -/
def slotName (es : List Entry) (i : Nat) : Str := (es[i]?.map Prod.fst).getD []

theorem Entries.hasStr (h : Entries dentry z es) (hi : i < 4) : z.HasStr (dentry.nameOff i) (slotName es i) ∧
    (slotName es i).length ≤ 9 := by
  have hslot := h.slot i hi
  unfold slotName
  cases hget : es[i]? with
  | none =>
    rw [hget] at hslot
    refine ⟨⟨.nil, nofun, hslot.2 0 (by omega), ?_⟩, Nat.zero_le _⟩
    show 6 + 12 * i + 2 + 0 < 64
    omega
  | some e =>
    rw [hget] at hslot
    exact hslot.2.2

/-- The slot that the scan stops at is the first one that shows the name. -/
theorem scanSubs_eq (h : Entries dentry z es) (hname : NulFree name) (hn : i + n ≤ 4) :
    scanSubs (frame z above) name n i = scanSubs (frame z fun _ => 0) name n i := by
  induction n generalizing i with
  | zero => rfl
  | succ n ih =>
    have hstr := (h.hasStr (show i < 4 by omega)).1
    rw [scanSubs, scanSubs, eqStr_frame hstr hname, eqStr_frame hstr hname, ih (by omega)]

theorem slotName_of_scanSubs (h : Entries dentry z es) (hname : NulFree name) (hn : i + n ≤ 4) {k : Nat}
    (hk : scanSubs (frame z above) name n i = some k) : slotName es k = name := by
  induction n generalizing i with
  | zero => cases hk
  | succ n ih =>
    rw [scanSubs, eqStr_frame (h.hasStr (show i < 4 by omega)).1 hname] at hk
    split at hk
    · rename_i heq
      cases hk
      exact (of_decide_eq_true heq).symm
    · exact ih (by omega) hk

end

/-- The id that a list of entries has for a name. -/
def lookupEntries (es : List Entry) (name : Str) : Option Int :=
  match es.find? (·.1 = name) with
  | some e => some e.2
  | none => if name = [] ∧ es.length < dentry.subs then some 0 else none

theorem lookupSub_eq {nb : Nat} {s : Store nb} {id : Int} {es : List Entry} {name : Str} (h : Entries dentry (s.zones id) es)
    (hname : NulFree name) : s.lookupSub id name = lookupEntries es name := by
  have hle : es.length ≤ 4 := h.le
  have hscan : ∀ n i, i + n = 4 → (scanSubs (frame (s.zones id) fun _ => 0) name n i).map (dentry.subId (s.zones id)) =
      match (es.drop i).find? (·.1 = name) with
      | some e => some e.2
      | none => if name = [] ∧ max i es.length < 4 then some 0 else none := by
    intro n
    induction n with
    | zero =>
      intro i hi
      rw [List.drop_eq_nil_of_le (by omega), List.find?_nil]
      dsimp only
      rw [if_neg (by omega)]
      rfl
    | succ n ih =>
      intro i hi
      have hslot := h.slot i (show i < 4 by omega)
      rw [scanSubs, eqStr_frame (h.hasStr (show i < 4 by omega)).1 hname]
      by_cases hlt : i < es.length
      · rw [List.getElem?_eq_getElem hlt] at hslot
        have hnm : slotName es i = es[i].1 := by simp [slotName, hlt]
        rw [List.drop_eq_getElem_cons hlt, List.find?_cons, hnm]
        by_cases heq : es[i].1 = name
        · simp [heq, hslot.1]
        · have hne : ¬name = es[i].1 := fun h => heq h.symm
          have hmax : max (i + 1) es.length = max i es.length := by omega
          simp only [hne, heq, decide_false, Bool.false_eq_true, if_false]
          rw [ih (i + 1) (by omega), hmax]
      · rw [List.getElem?_eq_none (by omega)] at hslot
        have hnm : slotName es i = [] := by simp [slotName, List.getElem?_eq_none (Nat.not_lt.mp hlt)]
        rw [List.drop_eq_nil_of_le (by omega), List.find?_nil, hnm]
        dsimp only
        by_cases hnil : name = []
        · rw [if_pos (decide_eq_true hnil), if_pos ⟨hnil, by omega⟩, Option.map_some, hslot.1]
        · rw [if_neg (by simpa using hnil), ih (i + 1) (by omega), List.drop_eq_nil_of_le (by omega), List.find?_nil]
          dsimp only
          rw [if_neg fun hc => hnil hc.1, if_neg fun hc => hnil hc.1]
  have h0 := hscan 4 0 rfl
  rw [List.drop_zero, Nat.zero_max] at h0
  exact h0

/-- What the scan finds in the four slots, it finds whatever lies above them. -/
theorem scanSubs_found {z : Zone} {es : List Entry} {name : Str} {above : Nat → Byte} {k : Nat} (h : Entries dentry z es)
    (hname : NulFree name) (hk : scanSubs (frame z fun _ => 0) name 4 0 = some k) :
    scanSubs (frame z above) name 10 0 = some k := by
  have hfour : scanSubs (frame z above) name 4 0 = some k := (scanSubs_eq h hname (Nat.le_refl _)).trans hk
  have hsplit : scanSubs (frame z above) name 10 0 =
      (scanSubs (frame z above) name 4 0).or (scanSubs (frame z above) name 6 4) := scanSubs_add (n := 4) (m := 6) (i := 0) _
  rw [hsplit, hfour, Option.some_or]

/-- What the scan does not find in the four slots, it looks for in the next six. -/
theorem scanSubs_beyond {z : Zone} {es : List Entry} {name : Str} {above : Nat → Byte} (h : Entries dentry z es)
    (hname : NulFree name) (hnone : scanSubs (frame z fun _ => 0) name 4 0 = none) :
    scanSubs (frame z above) name 10 0 = scanSubs (frame z above) name 6 4 := by
  have hfour : scanSubs (frame z above) name 4 0 = none := (scanSubs_eq h hname (Nat.le_refl _)).trans hnone
  have hsplit : scanSubs (frame z above) name 10 0 =
      (scanSubs (frame z above) name 4 0).or (scanSubs (frame z above) name 6 4) := scanSubs_add (n := 4) (m := 6) (i := 0) _
  rw [hsplit, hfour, Option.none_or]

/-! ## Paths -/

section
variable {P : Policy} {s : Store} {Q : Option PathT × Str → Store → Prop}

theorem getSubPath_spec {nb : Nat} {s : Store nb} {parent : PathT} {name : Str} {es : List Entry}
    {Q : Option PathT → Store nb → Prop} (hP : P.slots = true ∨ s.lookupSub parent.id name ≠ none)
    (h4 : 4 ≤ parent.id) (h : Entries dentry (s.zones parent.id) es) (hname : NulFree name)
    (hQ : Q ((s.lookupSub parent.id name).map (PathT.node · parent)) s) :
    wp (storeSem P) (getSubPath parent name) Q s := by
  unfold getSubPath
  refine wp_bind.mpr (readZone_spec h4 (wp_bind.mpr (stack_spec fun above hin => ?_)))
  dsimp only
  have hten : scanSubs (frame (s.zones parent.id) above) name 10 0 =
      scanSubs (frame (s.zones parent.id) fun _ => 0) name 4 0 := by
    cases hfour : scanSubs (frame (s.zones parent.id) fun _ => 0) name 4 0 with
    | some k => exact scanSubs_found h hname hfour
    | none =>
      rw [scanSubs_beyond h hname hfour]
      cases hrest : scanSubs (frame (s.zones parent.id) above) name 6 4 with
      | none => rfl
      | some k =>
        rcases hP with hP | hP
        · have hlt : k < 4 := hin hP k ((scanSubs_beyond h hname hfour).trans hrest)
          have hle := (le_of_scanSubs hrest).1
          omega
        · rw [Store.lookupSub, show dentry.subs = 4 from rfl, hfour] at hP
          exact absurd rfl hP
  rw [hten]
  unfold Store.lookupSub at hQ
  have hsubs : dentry.subs = 4 := rfl
  rw [hsubs] at hQ
  cases hscan : scanSubs (frame (s.zones parent.id) fun _ => 0) name 4 0 with
  | none =>
    rw [hscan] at hQ
    exact wp_ret.mpr hQ
  | some k =>
    rw [hscan] at hQ
    have hk : k < 4 := (le_of_scanSubs hscan).2
    have hlen := (h.hasStr hk).2
    rw [slotName_of_scanSubs h hname (show 0 + 4 ≤ 4 by omega) hscan] at hlen
    have hoff : dentry.idOff k + 1 < 64 := by
      show 6 + 12 * k + 1 < 64
      omega
    dsimp only
    rw [if_pos (by omega), frame_eq hoff, frame_eq (by omega)]
    exact wp_ret.mpr hQ

/-- The entries of the directories and the ids of the path stay inside the bitmap. -/
theorem Store.Dirs.sub (h : s.Dirs) {id sub : Int} {name : Str} (hname : NulFree name) (hid : s.state id = some dOccupied)
    (hsub : s.lookupSub id name = some sub) : sub < 1024 := by
  obtain ⟨es, hes, hlt⟩ := h id hid
  rw [lookupSub_eq hes hname] at hsub
  unfold lookupEntries at hsub
  split at hsub
  · rename_i e he
    cases hsub
    exact hlt e (List.mem_of_find?_eq_some he)
  · split at hsub
    · cases hsub
      omega
    · cases hsub

theorem PathT.root_below : PathT.root.Below := fun i hi => by
  rw [List.mem_singleton.mp hi]
  omega

theorem PathT.Below.prev {p q : PathT} (h : p.Below) (hq : p.prev = some q) : q.Below := by
  cases p with
  | root => cases hq
  | node id prev =>
    cases hq
    exact fun i hi => h i (List.mem_cons_of_mem _ hi)

theorem PathT.Below.state {p : PathT} (h : p.Below) : ∃ b, s.state p.id = some b := by
  refine getState_isSome (h p.id ?_)
  cases p <;> exact List.mem_cons_self

theorem pathClone_eq (p : PathT) : pathClone p = p := by
  induction p with
  | root => rfl
  | node id prev ih => rw [pathClone, ih]

/-- `get_path_from_root` -/
theorem getPathFromRoot_spec (hP : P.slots = true) (hs : s.Dirs) {fuel : Nat} {curr : PathT} {path : Str}
    (hfuel : path.length < fuel) (hcurr : curr.Below) (hpath : NulFree path) (hQ : Q (s.walk fuel curr path) s) :
    wp (storeSem P) (getPathFromRoot fuel curr path) Q s := by
  induction fuel generalizing curr path Q with
  | zero => omega
  | succ fuel ih =>
    unfold getPathFromRoot
    unfold Store.walk at hQ
    by_cases hdot : path = [] ∨ path = lit "."
    · rw [if_pos hdot] at hQ ⊢
      exact wp_ret.mpr hQ
    rw [if_neg hdot] at hQ ⊢
    by_cases hdots : path = lit ".."
    · rw [if_pos hdots] at hQ ⊢
      exact wp_ret.mpr hQ
    rw [if_neg hdots] at hQ ⊢
    have hne : 0 < path.length := List.length_pos_of_ne_nil fun h => hdot (Or.inl h)
    by_cases hhere : path.take 2 = lit "./"
    · rw [if_pos hhere] at hQ ⊢
      refine wp_bind.mpr (ih (by rw [List.length_drop]; omega) hcurr (hpath.drop 2) ?_)
      exact wp_ret.mpr hQ
    rw [if_neg hhere] at hQ ⊢
    by_cases hup : path.take 3 = lit "../"
    · rw [if_pos hup] at hQ ⊢
      cases hprev : curr.prev with
      | none =>
        rw [hprev] at hQ
        exact wp_ret.mpr hQ
      | some prev =>
        rw [hprev] at hQ
        refine wp_bind.mpr (ih (by rw [List.length_drop]; omega) (hcurr.prev hprev) (hpath.drop 3) ?_)
        exact wp_ret.mpr hQ
    rw [if_neg hup] at hQ ⊢
    obtain ⟨b, hb⟩ := hcurr.state (s := s)
    refine wp_bind.mpr (getState_spec hb ?_)
    rw [hb] at hQ
    by_cases hdir : b = dOccupied
    · subst hdir
      rw [if_neg (not_not.mpr rfl)] at hQ ⊢
      obtain ⟨es, hes, hlt⟩ := hs curr.id hb
      have hname : NulFree (path.takeWhile (· ≠ slash)) := hpath.takeWhile _
      have h4 := Store.le_of_state hb (by decide)
      refine wp_bind.mpr (getSubPath_spec (Or.inl hP) h4 hes hname ?_)
      dsimp only at hQ
      cases hsub : s.lookupSub curr.id (path.takeWhile (· ≠ slash)) with
      | none =>
        rw [hsub] at hQ
        exact wp_ret.mpr hQ
      | some sub =>
        rw [hsub] at hQ
        dsimp only [Option.map_some] at hQ ⊢
        by_cases hmore : (path.takeWhile (· ≠ slash)).length < path.length
        · rw [if_pos hmore] at hQ ⊢
          have hsubBelow : (PathT.node sub curr).Below := by
            intro i hi
            rcases List.mem_cons.mp hi with rfl | hi
            · exact hs.sub hname hb hsub
            · exact hcurr i hi
          refine wp_bind.mpr (ih (by rw [List.length_drop]; omega) hsubBelow (hpath.drop _) ?_)
          exact wp_ret.mpr hQ
        · rw [if_neg hmore] at hQ ⊢
          exact wp_ret.mpr hQ
    · have hne : some b ≠ some dOccupied := fun h => hdir (Option.some.inj h)
      rw [if_pos hdir]
      rw [if_pos hne] at hQ
      exact wp_ret.mpr hQ

/-- The result does not depend on the fuel when there is enough. -/
theorem Store.walk_fuel {fuel fuel' : Nat} {curr : PathT} {path : Str} (hfuel : path.length < fuel)
    (hfuel' : path.length < fuel') : s.walk fuel curr path = s.walk fuel' curr path := by
  induction fuel generalizing curr path fuel' with
  | zero => omega
  | succ fuel ih =>
    obtain ⟨fuel', rfl⟩ := Nat.exists_eq_succ_of_ne_zero (by omega : fuel' ≠ 0)
    unfold Store.walk
    by_cases hne : path = []
    · rw [if_pos (Or.inl hne), if_pos (Or.inl hne)]
    have hpos := List.length_pos_of_ne_nil hne
    have hdrop : ∀ n curr, 0 < n → s.walk fuel curr (path.drop n) = s.walk fuel' curr (path.drop n) := fun n curr hn =>
      ih (by rw [List.length_drop]; omega) (by rw [List.length_drop]; omega)
    simp only [hdrop 2 _ (by omega), hdrop 3 _ (by omega), hdrop _ _ (Nat.succ_pos _)]

/-- `get_path_from_pwd` does what `get_path_from_root` does on the nodes above `pwd`. -/
theorem getPathFromPwd_spec (hP : P.slots = true) (hs : s.Dirs) {fuel : Nat} {curr : PathT} {path : Str}
    (hfuel : path.length + 1 < fuel) (hcurr : curr.Below) (hpath : NulFree path)
    (hQ : Q (s.walk (path.length + 1) curr path) s) : wp (storeSem P) (getPathFromPwd fuel curr path) Q s := by
  induction fuel generalizing curr path Q with
  | zero => omega
  | succ fuel ih =>
    have hroot : wp (storeSem P) (getPathFromRoot fuel curr path) Q s := getPathFromRoot_spec hP hs (by omega) hcurr hpath
      (s.walk_fuel (show path.length < path.length + 1 by omega) (show path.length < fuel by omega) ▸ hQ)
    unfold getPathFromPwd
    unfold Store.walk at hQ
    by_cases hdot : path = [] ∨ path = lit "."
    · rw [if_pos hdot] at hQ ⊢
      rw [pathClone_eq]
      exact wp_ret.mpr hQ
    rw [if_neg hdot] at hQ ⊢
    by_cases hdots : path = lit ".."
    · rw [if_pos hdots] at hQ ⊢
      have hclone : curr.prev.map pathClone = curr.prev := by
        cases curr.prev with
        | none => rfl
        | some p => exact congrArg some (pathClone_eq p)
      rw [hclone]
      exact wp_ret.mpr hQ
    rw [if_neg hdots] at hQ ⊢
    have hne : 0 < path.length := List.length_pos_of_ne_nil fun h => hdot (Or.inl h)
    have hfuels : ∀ n q, 0 < n → s.walk path.length q (path.drop n) = s.walk ((path.drop n).length + 1) q (path.drop n) :=
      fun n q hn => s.walk_fuel (by rw [List.length_drop]; omega) (Nat.lt_succ_self _)
    by_cases hhere : path.take 2 = lit "./"
    · rw [if_pos hhere] at hQ ⊢
      rw [hfuels 2 curr (by omega)] at hQ
      exact wp_bind.mpr (ih (by rw [List.length_drop]; omega) hcurr (hpath.drop 2) (wp_ret.mpr hQ))
    rw [if_neg hhere] at hQ ⊢
    by_cases hup : path.take 3 = lit "../"
    · rw [if_pos hup] at hQ ⊢
      cases hprev : curr.prev with
      | none =>
        rw [hprev] at hQ
        exact wp_ret.mpr hQ
      | some prev =>
        rw [hprev] at hQ
        dsimp only at hQ ⊢
        rw [hfuels 3 prev (by omega)] at hQ
        rw [pathClone_eq]
        refine wp_bind.mpr (getPathFromRoot_spec hP hs (by rw [List.length_drop]; omega) (hcurr.prev hprev) (hpath.drop 3) ?_)
        have hfuel' : s.walk fuel prev (path.drop 3) = s.walk ((path.drop 3).length + 1) prev (path.drop 3) :=
          s.walk_fuel (by rw [List.length_drop]; omega) (Nat.lt_succ_self _)
        rw [hfuel']
        exact wp_ret.mpr hQ
    rw [if_neg hup] at hQ ⊢
    obtain ⟨b, hb⟩ := hcurr.state (s := s)
    refine wp_bind.mpr (getState_spec hb ?_)
    by_cases hdir : b = dOccupied
    · rw [if_neg (not_not.mpr hdir), pathClone_eq]
      exact hroot
    · rw [if_pos hdir]
      rw [hb, if_pos fun h => hdir (Option.some.inj h)] at hQ
      exact wp_ret.mpr hQ

/-- `get_path` -/
theorem getPath_spec (hP : P.slots = true) (hs : s.Dirs) {pwd : PathT} {path : Str} (hpwd : pwd.Below) (hpath : NulFree path)
    (hQ : Q (s.lookup pwd path) s) : wp (storeSem P) (getPath pwd path) Q s := by
  cases path with
  | nil => exact getPathFromPwd_spec hP hs (by simp) hpwd hpath hQ
  | cons c rest =>
    unfold getPath
    unfold Store.lookup at hQ
    dsimp only at hQ ⊢
    by_cases hc : c = slash
    · rw [if_pos hc] at hQ ⊢
      refine wp_bind.mpr (getPathFromRoot_spec hP hs (Nat.lt_succ_self _) PathT.root_below
        (fun d hd => hpath d (List.mem_cons_of_mem _ hd)) ?_)
      exact wp_ret.mpr hQ
    · rw [if_neg hc] at hQ ⊢
      exact getPathFromPwd_spec hP hs (by simp) hpwd hpath hQ

/-- What a lookup returns stays inside the bitmap. -/
theorem Store.Dirs.walk_below (hs : s.Dirs) {fuel : Nat} {curr p : PathT} {path : Str} (hcurr : curr.Below)
    (hpath : NulFree path) (h : (s.walk fuel curr path).1 = some p) : p.Below := by
  induction fuel generalizing curr path with
  | zero => cases h
  | succ fuel ih =>
    unfold Store.walk at h
    split at h
    · cases h
      exact hcurr
    split at h
    · exact hcurr.prev h
    split at h
    · exact ih hcurr (hpath.drop 2) h
    split at h
    · cases hprev : curr.prev with
      | none => rw [hprev] at h; cases h
      | some prev =>
        rw [hprev] at h
        exact ih (hcurr.prev hprev) (hpath.drop 3) h
    split at h
    · cases h
    rename_i hstate
    dsimp only at h
    cases hsub : s.lookupSub curr.id (path.takeWhile (· ≠ slash)) with
    | none => rw [hsub] at h; cases h
    | some sub =>
      rw [hsub] at h
      have hsubBelow : (PathT.node sub curr).Below := by
        intro i hi
        rcases List.mem_cons.mp hi with rfl | hi
        · exact hs.sub (hpath.takeWhile _) (not_not.mp hstate) hsub
        · exact hcurr i hi
      dsimp only at h
      split at h
      · exact ih hsubBelow (hpath.drop _) h
      · cases h
        exact hsubBelow

theorem Store.Dirs.lookup_below (hs : s.Dirs) {pwd p : PathT} {path : Str} (hpwd : pwd.Below) (hpath : NulFree path)
    (h : (s.lookup pwd path).1 = some p) : p.Below := by
  cases path with
  | nil =>
    cases h
    exact hpwd
  | cons c rest =>
    unfold Store.lookup at h
    dsimp only at h
    split at h
    · exact hs.walk_below PathT.root_below (fun d hd => hpath d (List.mem_cons_of_mem _ hd)) h
    · exact hs.walk_below hpwd hpath h

end

end MiniFs
