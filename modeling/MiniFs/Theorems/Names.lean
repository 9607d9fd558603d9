import MiniFs.Theorems.WriteByPath

/-! # The names of entries

A name gets into a directory by `mk_file` and `mk_dir` only, so that what the inserted names have in common all names
have: the length that fits a slot, no slash, and, where the lookup before looks at the name that is inserted, that it
is new in its directory. -/

namespace MiniFs
open Interact Memory

/-! ## Names along a run -/

/-- The names of every directory are as `N` says. -/
def Image.Named (g : Image) (N : List Str → Prop) : Prop := ∀ d nd, g.node d = some nd → N (nd.entries.map Prod.fst)

/-- An entry may be inserted where the names stay as `N` says. -/
def Rules.names (N : List Str → Prop) : Rules :=
  ⟨fun nd name => name.length ≤ 9 → N (nd.entries.map Prod.fst ++ [name]), fun _ _ _ => True⟩

section
variable {r : Rules} {s s' : Store} {g g' : Image} {d : Int} {nd' : Node} {N : List Str → Prop}

/-- What the entries of a directory come from: fewer of its entries, or these with a new one. -/
theorem Change.entries_cases (hc : Change r s g s' g') (hd : g'.node d = some nd') : nd'.entries = [] ∨
    ∃ nd, g.node d = some nd ∧ ((∃ l, nd.entries.Perm (l ++ nd'.entries)) ∨
      ∃ e, nd'.entries = nd.entries ++ [e] ∧ e.1.length ≤ 9 ∧ r.insert nd e.1) := by
  cases hc with
  | @insert c e n nd md new h short ok =>
    rw [h.node] at hd
    split at hd
    · rename_i heq
      cases hd
      exact Or.inr ⟨nd, heq ▸ h.dir, Or.inr ⟨e, h.entries, short, ok⟩⟩
    split at hd
    · cases hd
      exact Or.inl h.blank.1
    · exact Or.inr ⟨nd', hd, Or.inl ⟨[], List.Perm.refl _⟩⟩
  | @erase c e nd md zs h ok =>
    rw [h.node] at hd
    split at hd
    · cases hd
    split at hd
    · rename_i heq
      cases hd
      exact Or.inr ⟨nd, heq ▸ h.dir, Or.inl ⟨[e], h.entries⟩⟩
    · exact Or.inr ⟨nd', hd, Or.inl ⟨[], List.Perm.refl _⟩⟩
  | @extend id kids kids' new h =>
    rw [h.node] at hd
    split at hd
    · cases hd
      exact Or.inl rfl
    · exact Or.inr ⟨nd', hd, Or.inl ⟨[], List.Perm.refl _⟩⟩

theorem Image.Named.step (hJ : g.Named N) (hnil : N []) (hsub : ∀ l names names', names.Perm (l ++ names') → N names →
    N names') (hc : Change (.names N) s g s' g') :
    g'.Named N := by
  intro d nd' hd
  rcases hc.entries_cases hd with hempty | ⟨nd, hnd, ⟨l, hperm⟩ | ⟨e, hentries, hshort, hok⟩⟩
  · rw [hempty]
    exact hnil
  · have hnames := hperm.map Prod.fst
    rw [List.map_append] at hnames
    exact hsub _ _ _ hnames (hJ d nd hnd)
  · rw [hentries, List.map_append]
    exact hok hshort

theorem Image.Named.start (hnil : N []) : Image.start.Named N := by
  intro d nd hd
  unfold Image.start at hd
  dsimp only at hd
  split at hd
  · cases hd
    exact hnil
  · cases hd

end

/-! ## Legal names -/

/-- A name of 1 to 9 characters without a slash. -/
def LegalName (name : Str) : Prop := 1 ≤ name.length ∧ name.length ≤ 9 ∧ slash ∉ name

/-- What `rm_name` cuts off the path is not empty and has no slash. -/
def Splits (path : Str) : Prop := newName path ≠ [] ∧ slash ∉ newName path

instance (path : Str) : Decidable (Splits path) := inferInstanceAs (Decidable (newName path ≠ [] ∧ slash ∉ newName path))

/-- A request whose path splits, if it inserts a name. -/
structure SplitsNew (s : Store) (pwd : PathT) (toks : List Str) : Prop where
  new : ∀ a, Creates toks a → s.insertion pwd a ≠ none → Splits a
  old : ∀ a b p, toks = [lit "write", a, b] → (s.lookup pwd a).1 = some p → s.state p.id = some iOccupied → Splits a

/-- The names are legal. -/
abbrev AllLegal (names : List Str) : Prop := ∀ name ∈ names, LegalName name

section
variable {s t : Store} {g : Image} {pwd : PathT} {path name : Str} {d d' : Int} {nd : Node} {toks : List Str}

theorem AllLegal.insert (h : g.Named AllLegal) (hd : g.node d' = some nd) (hsplit : Splits path)
    (hi : t.insertion pwd path = some (d, name)) : (Rules.names AllLegal).insert nd name := by
  rw [← newName_eq hi]
  intro hlen nm hnm
  rcases List.mem_append.mp hnm with hnm | hnm
  · exact h d' nd hd nm hnm
  · rw [List.mem_singleton.mp hnm]
    exact ⟨List.length_pos_of_ne_nil hsplit.1, hlen, hsplit.2⟩

/-- The old file's directory has fewer names when the new one is inserted. -/
theorem Rewritten.named {s₁ : Store} {g₁ : Image} {N : List Str → Prop} (hre : Rewritten s g pwd path s₁ g₁) (h : g.Named N)
    (hsub : ∀ l names names', names.Perm (l ++ names') → N names → N names') : g₁.Named N := by
  rcases hre with ⟨-, rfl⟩ | ⟨q, n, d, e, nd, nd', -, -, -, her⟩
  · exact h
  · intro i m hi
    rw [her.node] at hi
    split at hi
    · cases hi
    split at hi
    · cases hi
      have hnames := her.entries.map Prod.fst
      exact hsub [e.1] _ _ hnames (h d nd her.dir)
    · exact h i m hi

theorem AllLegal.sub (l names names' : List Str) (hperm : names.Perm (l ++ names')) (h : AllLegal names) : AllLegal names' :=
  fun name hname => h name (hperm.mem_iff.mpr (List.mem_append_right _ hname))

theorem SplitsNew.follows (hok : SplitsNew s pwd toks) (h : g.Named AllLegal) : Follows (.names AllLegal) s g pwd toks where
  insert := fun a d name nd hc hi hd => AllLegal.insert h hd (hok.new a hc (by rw [hi]; nofun)) hi
  rm := fun _ _ _ _ _ _ => trivial
  rmdir := fun _ _ _ _ _ _ => trivial
  rewrite := fun a b p ht hp hfile => ⟨fun _ _ _ _ => trivial, fun s₁ g₁ hre d name nd hi hd =>
    AllLegal.insert (hre.named h AllLegal.sub) hd (hok.old a b p ht hp hfile) hi⟩

theorem Reached.legal (h : Reached .kept (fun s pwd toks => Safe s pwd toks ∧ SplitsNew s pwd toks) s pwd) :
    ∃ g, Inv s g ∧ g.Named AllLegal := by
  have hnil : AllLegal [] := fun _ hname => absurd hname List.not_mem_nil
  obtain ⟨g, hinv, hJ, -⟩ := h.keeps (r := fun _ => .names AllLegal) (J := fun _ _ g => g.Named AllLegal)
    (fun _ _ _ hok => hok.1)
    (fun _ _ _ _ _ hJ _ hok => hok.2.follows hJ) (fun _ _ => .start hnil)
    (fun _ _ _ _ _ _ hJ hc _ => hJ.step hnil AllLegal.sub hc) fun _ _ _ _ _ _ hJ _ _ _ => hJ
  exact ⟨g, hinv, hJ⟩

end

/-! ## The other slots -/

namespace Store

/-- The zones of the chain from zone `z` on, each with its layout. -/
def zonesFrom (s : Store) : (fuel : Nat) → Layout → Int → List (Layout × Int)
  | 0, _, _ => []
  | fuel + 1, L, z => (L, z) :: if L.next (s.zones z) = 0 then [] else s.zonesFrom fuel dirZone (L.next (s.zones z))

/-- The zones of directory `d`. -/
def dirZones (s : Store) (d : Int) : List (Layout × Int) := s.zonesFrom zoneFuel dentry d

end Store

/-- All slots but the filled one keep the bytes of their ids and names, the filled one was free, and `next` changes only where
    all slots are used. -/
structure KeepsSlots (L : Layout) (z z' : Zone) (filled : Nat → Prop) : Prop where
  slot : ∀ i < L.subs, ¬filled i → ∀ k, InSlot L i k → z'.get k = z.get k
  free : ∀ i < L.subs, filled i → L.subId z i = 0
  next : L.next z' = L.next z ∨ L.next z = 0 ∧ ∀ i < L.subs, L.subId z i ≠ 0

section
variable {s s' : Store} {L : Layout} {z d : Int} {es es' : List Entry} {rest rest' : List Seg} {e : Entry} {fuel : Nat}

theorem Chain.zonesFrom_eq (h : Chain s.zones L z es rest) (hfuel : rest.length < fuel) :
    s.zonesFrom fuel L z = (L, z) :: rest.map fun seg => (dirZone, seg.1) := by
  induction rest generalizing L z es fuel with
  | nil =>
    obtain ⟨fuel, rfl⟩ := Nat.exists_eq_succ_of_ne_zero (by omega : fuel ≠ 0)
    rw [Store.zonesFrom, if_pos h.2]
    rfl
  | cons seg rest ih =>
    obtain ⟨fuel, rfl⟩ := Nat.exists_eq_succ_of_ne_zero (by omega : fuel ≠ 0)
    obtain ⟨-, -, hnext, h4, hrest⟩ := h
    rw [Store.zonesFrom, if_neg (by rw [hnext]; omega), hnext, ih hrest (by simpa using hfuel)]
    rfl

/-- `next` changes at the end of the chain, when all slots before it are used. -/
theorem Chain.keepsNext {new : List Int} (h : Chain s.zones L z es rest) (h' : Chain s'.zones L z es' rest')
    (hids : rest'.map Prod.fst = rest.map Prod.fst ++ new)
    (hfull : new ≠ [] → (lastEntries es rest).length = lastSubs L rest) :
    ∀ p ∈ (L, z) :: rest.map (fun seg => (dirZone, seg.1)), p.1.next (s'.zones p.2) = p.1.next (s.zones p.2) ∨
      p.1.next (s.zones p.2) = 0 ∧ ∀ i < p.1.subs, p.1.subId (s.zones p.2) i ≠ 0 := by
  induction rest generalizing L z es es' rest' with
  | nil =>
    intro p hp
    rw [List.mem_singleton.mp hp]
    cases rest' with
    | nil => exact Or.inl (h'.2.trans h.2.symm)
    | cons seg rest' =>
      have hlen : es.length = L.subs := by
        have := hfull fun hnil => by rw [hnil] at hids; cases hids
        simpa [lastEntries, lastSubs] using this
      refine Or.inr ⟨h.2, fun i (hi : i < L.subs) => ?_⟩
      rw [ne_eq, h.1.subId_eq_zero hi]
      omega
  | cons seg rest ih =>
    obtain ⟨-, -, hnext, -, hrest⟩ := h
    cases rest' with
    | nil => cases hids
    | cons seg' rest' =>
      obtain ⟨-, -, hnext', -, hrest'⟩ := h'
      obtain ⟨hseg, hids⟩ := List.cons.inj hids
      have hseg : seg'.1 = seg.1 := hseg
      intro p hp
      rcases List.mem_cons.mp hp with rfl | hp
      · exact Or.inl (by rw [hnext, hnext', hseg])
      · refine ih hrest (hseg ▸ hrest') hids (fun hne => ?_) p hp
        have := hfull hne
        rwa [lastSubs_cons] at this

theorem lastSeg_mem : lastSeg z rest ∈ z :: rest.map Prod.fst := by
  induction rest generalizing z with
  | nil => exact List.mem_singleton_self z
  | cons seg rest ih => exact List.mem_cons_of_mem _ ih

/-- The last zone of a chain, with its layout and its entries. -/
theorem Chain.last (h : Chain s.zones L z es rest) (hnodup : (z :: rest.map Prod.fst).Nodup) :
    Entries (lastLayout L rest) (s.zones (lastSeg z rest)) (lastEntries es rest) ∧
      ∀ p ∈ (L, z) :: rest.map (fun seg => (dirZone, seg.1)), p.2 = lastSeg z rest → p.1 = lastLayout L rest := by
  induction rest generalizing L z es with
  | nil => exact ⟨h.1, fun p hp _ => by rw [List.mem_singleton.mp hp]; rfl⟩
  | cons seg rest ih =>
    obtain ⟨hz, hnodup⟩ := List.nodup_cons.mp hnodup
    obtain ⟨hentries, hlayout⟩ := ih h.2.2.2.2 hnodup
    rw [lastLayout_cons]
    refine ⟨hentries, fun p hp hlast => ?_⟩
    rcases List.mem_cons.mp hp with rfl | hp
    · exact absurd ((show z = lastSeg seg.1 rest from hlast) ▸ lastSeg_mem) hz
    · exact hlayout p hp hlast

/-- Adding an entry fills one free slot and keeps all the others. -/
theorem DirChain.keepsSlots {id : Int} {name : Str} (h : DirChain s d es rest) (hid : 5 ≤ id ∧ id < 2 ^ 15)
    (hname : NulFree name) (hlen : name.length ≤ 9) :
    wp (storeSem .unexhausted) (addSub d id name) (fun _ s' => ∃ tail slot, ∀ p ∈ s.dirZones d,
      KeepsSlots p.1 (s.zones p.2) (s'.zones p.2) fun i => p.2 = tail ∧ i = slot) s := by
  refine wp_mono (h.add ⟨by omega, hid.2⟩ hname hlen (Or.inl rfl)) ?_
  rintro - s' ⟨es', rest', new, now, h', hadded⟩
  unfold Store.dirZones
  rw [h.chain.zonesFrom_eq h.length_rest]
  obtain ⟨hlast, hlayout⟩ := h.chain.last h.zones
  have hfull : new ≠ [] → (lastEntries es rest).length = lastSubs dentry rest := fun hne => by
    have hle := h.chain.lastEntries_le
    have hcount := hadded.count
    have hpos := List.length_pos_of_ne_nil hne
    by_cases hlt : (lastEntries es rest).length < lastSubs dentry rest
    · rw [if_pos hlt] at hcount
      omega
    · omega
  -- The time is behind the slots.
  have htime : ∀ (i : Int) (k : Nat), k < 56 → ((s.write d ((s.zones d).setTime now)).zones i).get k = (s.zones i).get k := by
    intro i k hk
    by_cases hi : i = d
    · rw [hi, Store.zones_write_self]
      exact Bytes.get_blit_of_disjoint (Or.inl hk)
    · rw [Store.zones_write_of_ne _ hi]
  have hslot : ∀ p ∈ (dentry, d) :: rest.map (fun seg => (dirZone, seg.1)), ∀ i < p.1.subs, ∀ k, InSlot p.1 i k →
      k < p.1.nextOff ∧ (p.2 = d → k < 56) := fun p hp i hi k hk => by
    have hk := hk.2
    unfold Layout.idOff at hk
    rcases List.mem_cons.mp hp with rfl | hp
    · have hdentry := dentry_ok.next
      have hoff : dentry.nextOff = 54 := rfl
      dsimp only at *
      omega
    · obtain ⟨seg, hseg, rfl⟩ := List.mem_map.mp hp
      have hdirZone := dirZone_ok.next
      refine ⟨by dsimp only at *; omega, fun heq => ?_⟩
      exact absurd (heq ▸ List.mem_map_of_mem hseg) (List.nodup_cons.mp h.zones).1
  refine ⟨lastSeg d rest, (lastEntries es rest).length, fun p hp => ⟨fun i hi hne k hk => ?_, fun i hi hfilled => ?_,
    h.chain.keepsNext h'.chain hadded.ids hfull p hp⟩⟩
  · obtain ⟨hknext, hk56⟩ := hslot p hp i hi k hk
    have hold : (s'.zones p.2).get k = ((s.write d ((s.zones d).setTime now)).zones p.2).get k := by
      by_cases htail : p.2 = lastSeg d rest
      · have hL := hlayout p hp htail
        rw [htail]
        refine hadded.slots k (hL ▸ hknext) fun hin => hne ⟨htail, ?_⟩
        rw [← hL] at hin
        have h1 := hk.1
        have h2 := hk.2
        have h3 := hin.1
        have h4 := hin.2
        unfold Layout.idOff at *
        omega
      · rw [hadded.prior p.2 htail (hadded.takes.not_mem (h.used p.2 ?_))]
        rcases List.mem_cons.mp hp with rfl | hp
        · exact List.mem_cons_self
        · obtain ⟨seg, hseg, rfl⟩ := List.mem_map.mp hp
          exact List.mem_cons_of_mem _ (List.mem_map_of_mem hseg)
    rw [hold]
    by_cases hd : p.2 = d
    · exact htime p.2 k (hk56 hd)
    · rw [Store.zones_write_of_ne _ hd]
  · obtain ⟨htail, rfl⟩ := hfilled
    rw [← hlayout p hp htail, ← htail] at hlast
    exact (hlast.subId_eq_zero hi).mpr (Nat.le_refl _)

end

/-- The names in directory `d` are legal, and a name of at most nine characters that is inserted into it changes no slot, used
    or free, but one. -/
def LegalDir (s : Store) (d : Int) : Prop :=
  (∀ e ∈ s.listing d, LegalName e.1) ∧ ∀ id name, 5 ≤ id ∧ id < 2 ^ 15 → NulFree name → name.length ≤ 9 →
    wp (storeSem .unexhausted) (addSub d id name) (fun _ s' => ∃ tail slot, ∀ p ∈ s.dirZones d,
      KeepsSlots p.1 (s.zones p.2) (s'.zones p.2) fun i => p.2 = tail ∧ i = slot) s

/-- In every run of safe requests whose paths split, all names are legal. -/
theorem names_legal_of_safe_run (s : Store) (pwd : PathT)
    (h : Reached .kept (fun s pwd toks => Safe s pwd toks ∧ SplitsNew s pwd toks) s pwd) :
    ∀ d, s.state d = some dOccupied → LegalDir s d := by
  intro d hd
  obtain ⟨g, hinv, hlegal⟩ := h.legal
  obtain ⟨es, rest, hnode⟩ := hinv.dir_of_state hd
  refine ⟨fun e he => ?_, fun id name hid hname hlen => (hinv.dirChain hnode).keepsSlots hid hname hlen⟩
  rw [hinv.listing_eq hnode] at he
  exact hlegal d _ hnode e.1 (List.mem_map_of_mem he)

theorem SplitsNew.of_path {s : Store} {pwd : PathT} {t a : Str} (h : Splits a) : SplitsNew s pwd [t, a] where
  new := by
    rintro a' (⟨heq | heq, -⟩ | ⟨b, heq⟩) -
    · cases heq
      exact h
    · cases heq
      exact h
    · cases heq
  old := by
    rintro a' b p heq
    cases heq

/-- A directory with a name of nine characters, the longest. -/
theorem names_legal_of_safe_run_touch : ∃ s : Store,
    s.listing 4 = [(lit "a", 5), (lit "ninechars", 6), (lit "d", 7)] ∧ LegalDir s 4 := by
  let reqs := [lit "touch ./a", lit "touch ninechars", lit "mkdir d"]
  have hdec : (serveAll reqs .root emptyDisk).map (fun r => decide (r.2.state 4 = some dOccupied ∧
      r.2.listing 4 = [(lit "a", 5), (lit "ninechars", 6), (lit "d", 7)])) = some true := by decide +kernel
  obtain ⟨⟨pwd, s⟩, hserve, hstate, hlist⟩ := exists_of_decide hdec
  refine ⟨s, hlist, names_legal_of_safe_run s pwd (.serveAll (.format emptyDisk_formatted) (by decide) ?_ hserve) 4 hstate⟩
  have hok : ∀ req ∈ reqs, ∃ t a, toks req 6 = [t, a] ∧ t ≠ lit "rm" ∧ t ≠ lit "rmdir" ∧ Splits a := by
    exact List.forall_mem_cons.mpr ⟨⟨lit "touch", lit "./a", by decide⟩, List.forall_mem_cons.mpr
      ⟨⟨lit "touch", lit "ninechars", by decide⟩, List.forall_mem_singleton.mpr ⟨lit "mkdir", lit "d", by decide⟩⟩⟩
  intro req hreq s pwd
  obtain ⟨t, a, htoks, hrm, hrmdir, hsplits⟩ := hok req hreq
  rw [htoks]
  exact ⟨⟨fun h => absurd h hrm, fun h => absurd h hrmdir⟩, .of_path hsplits⟩

/-- `touch /x` stores the name `/x`. -/
theorem touch_root_name : ¬∀ s pwd, Reached .all AnyRequest s pwd → ∀ d, s.state d = some dOccupied → LegalDir s d := by
  intro hall
  have hdec : (serveAll [lit "touch /x"] .root emptyDisk).map (fun r => decide (r.2.listing 4 = [(lit "/x", 5)] ∧
      r.2.state 4 = some dOccupied)) = some true := by decide +kernel
  obtain ⟨⟨pwd, s⟩, hserve, hlist, hstate⟩ := exists_of_decide hdec
  have hreached : Reached .all AnyRequest s pwd :=
    .serveAll (.format emptyDisk_formatted) (by decide) (fun _ _ _ _ => trivial) hserve
  have hlegal := (hall s pwd hreached 4 hstate).1 (lit "/x", 5) (by rw [show s.listing 4 = _ from hlist]; decide)
  exact hlegal.2.2 (by decide)

/-! ## Unique names -/

/-- Dots and a name. -/
def Dotted (path : Str) : Prop := ∃ dir name, DirPath dir ∧ EntryName name ∧ path = dir ++ name

/-- A request that looks up the name it inserts, among all the entries of the directory. -/
structure LooksUp (s : Store) (pwd : PathT) (toks : List Str) : Prop where
  new : ∀ a d name, Creates toks a → s.insertion pwd a = some (d, name) →
    Dotted a ∧ name ∉ ((s.listing d).drop 4).map Prod.fst
  old : ∀ a b p, toks = [lit "write", a, b] → (s.lookup pwd a).1 = some p → s.state p.id = some iOccupied → Dotted a

section
variable {s s₁ : Store} {g g₁ : Image} {pwd p q : PathT} {dir path name nm : Str} {d : Int} {nd : Node} {es : List Entry}
  {rest : List Seg} {toks : List Str} {fuel : Nat}

theorem DotDir.stemFrom_eq (h : DotDir dir) (hname : EntryName name) (hfuel : dir.length < fuel) :
    stemFrom fuel (dir ++ name) = dir ++ name := by
  induction h generalizing fuel with
  | nil =>
    obtain ⟨fuel, rfl⟩ := Nat.exists_eq_succ_of_ne_zero (by omega : fuel ≠ 0)
    rw [List.nil_append, stemFrom, if_neg hname.plain.here, if_neg hname.plain.up, takeWhile_of_not_mem hname.single]
  | @here dir h ih =>
    obtain ⟨fuel, rfl⟩ := Nat.exists_eq_succ_of_ne_zero (by omega : fuel ≠ 0)
    rw [List.length_append] at hfuel
    rw [List.append_assoc, stemFrom_here, ih (by have : (lit "./").length = 2 := rfl; omega)]
  | @up dir h ih =>
    obtain ⟨fuel, rfl⟩ := Nat.exists_eq_succ_of_ne_zero (by omega : fuel ≠ 0)
    rw [List.length_append] at hfuel
    rw [List.append_assoc, stemFrom_up, ih (by have : (lit "../").length = 3 := rfl; omega)]

/-- `get_path` leaves such a path as it is. -/
theorem DirPath.stem_eq (h : DirPath dir) (hname : EntryName name) : stem (dir ++ name) = dir ++ name := by
  rcases h with h | ⟨pre, -, h, rfl⟩
  · obtain ⟨c, tail, heq⟩ := List.exists_cons_of_ne_nil (show dir ++ name ≠ [] by simp [hname.ne])
    have hc : c ≠ slash := by
      rintro rfl
      cases h with
      | nil => exact hname.single (by rw [show name = _ from heq]; exact List.mem_cons_self)
      | here => cases heq
      | up => cases heq
    have hlen := congrArg List.length heq
    rw [List.length_append, List.length_cons] at hlen
    have hstem := @DotDir.stemFrom_eq dir name (tail.length + 2) h hname (by omega)
    rw [heq] at hstem ⊢
    rw [stem, if_neg hc, hstem]
  · rw [List.cons_append, stem, if_pos rfl, h.stemFrom_eq hname (by rw [List.length_append]; omega)]

/-- The name that is inserted is the last component, and it goes into the directory that the dots lead to. -/
theorem EntryName.leads_of_insertion (hname : EntryName name) (hdir : DirPath dir)
    (hi : s.insertion pwd (dir ++ name) = some (d, nm)) : nm = name ∧ ∃ q, Leads pwd dir name q ∧ q.id = d := by
  obtain ⟨rest, q, hrm, hq, rfl, -⟩ := insertion_eq hi
  rw [hdir.stem_eq hname] at hrm
  rcases hdir.split with rfl | ⟨par, hne, rfl, hlook⟩
  · obtain ⟨c, tail, rfl⟩ := List.exists_cons_of_ne_nil hname.ne
    have hself : rmName (c :: tail) = some (c :: tail, []) :=
      rmName_of_not_mem fun hin => hname.single (List.mem_cons_of_mem c hin)
    rw [List.nil_append, hself] at hrm
    obtain ⟨rfl, rfl⟩ := Prod.mk.inj (Option.some.inj hrm)
    exact ⟨rfl, q, hname.leads hdir (hq s), rfl⟩
  · have happ : par ++ [slash] ++ name = par ++ slash :: name := by simp
    rw [happ, rmName_append hne hname.single] at hrm
    obtain ⟨rfl, rfl⟩ := Prod.mk.inj (Option.some.inj hrm)
    exact ⟨rfl, q, hname.leads hdir ((hlook s pwd).trans (hq s)), rfl⟩

theorem nodup_sub (l names names' : List Str) (hperm : names.Perm (l ++ names')) (h : names.Nodup) : names'.Nodup :=
  (List.nodup_append.mp (hperm.nodup_iff.mp h)).2.1

theorem nodup_insert {names : List Str} (h : names.Nodup) (hnew : nm ∉ names) : (names ++ [nm]).Nodup :=
  List.concat_eq_append ▸ List.Nodup.concat hnew h

theorem not_mem_of_lookupEntries (h : lookupEntries es name = none) : name ∉ es.map Prod.fst := by
  intro hin
  obtain ⟨e, he, rfl⟩ := List.mem_map.mp hin
  unfold lookupEntries at h
  split at h
  · cases h
  · rename_i hfind
    simpa using List.find?_eq_none.mp hfind e he

/-- The entries after those of the dentry. -/
theorem Chain.drop_entriesOf (h : Chain s.zones dentry d es rest) : (entriesOf es rest).drop 4 =
    (entriesOf es rest).drop es.length := by
  cases rest with
  | nil =>
    have hle : es.length ≤ 4 := h.1.le
    have hself : entriesOf es [] = es := List.append_nil es
    rw [hself, List.drop_length, List.drop_eq_nil_of_le hle]
  | cons seg rest =>
    have hlen : es.length = 4 := h.2.1
    rw [hlen]

/-- A name that is looked up and is in no chained zone is new in its directory. -/
theorem LooksUp.fresh (hok : LooksUp s pwd toks) (hc : Creates toks path) (h : Inv s g)
    (hi : s.insertion pwd path = some (d, nm)) (hd : g.node d = some nd) : nm ∉ nd.entries.map Prod.fst := by
  obtain ⟨⟨dir, name, hdir, hname, rfl⟩, hchained⟩ := hok.new path d nm hc hi
  obtain ⟨rfl, q, hl, rfl⟩ := hname.leads_of_insertion hdir hi
  obtain ⟨-, -, -, -, -, hstate⟩ := insertion_eq hi
  obtain ⟨es, rest, hq⟩ := h.dir_of_state hstate
  obtain rfl : nd = .dir es rest := Option.some.inj (hd.symm.trans hq)
  have hnone : (s.lookup pwd (dir ++ nm)).1 = none := by
    unfold Store.insertion at hi
    split at hi
    · cases hi
    · rename_i hnone
      rw [hnone]
  rw [hl.lookup_eq hname h hq] at hnone
  rw [h.listing_eq hq, (h.rep _ _ hq).drop_entriesOf] at hchained
  have hsplit : entriesOf es rest = es ++ (entriesOf es rest).drop es.length := by
    unfold entriesOf
    rw [List.drop_left]
  show nm ∉ (entriesOf es rest).map Prod.fst
  rw [hsplit, List.map_append, List.mem_append, not_or]
  exact ⟨not_mem_of_lookupEntries (Option.map_eq_none_iff.mp hnone), hchained⟩

/-- Once the old file's entry is gone its name is new. -/
theorem Rewritten.fresh (hre : Rewritten s g pwd path s₁ g₁) (h : Inv s g) (hJ : g.Named List.Nodup) (hdot : Dotted path)
    (hp : (s.lookup pwd path).1 = some p) (hi : s₁.insertion pwd path = some (d, nm)) (hd : g₁.node d = some nd) :
    nm ∉ nd.entries.map Prod.fst := by
  obtain ⟨dir, name, hdir, hname, rfl⟩ := hdot
  rcases hre with ⟨rfl, -⟩ | ⟨q', n, d', e, nd₀, nd', hq', -, heq, her⟩
  · unfold Store.insertion at hi
    split at hi
    · cases hi
    · rename_i hnone
      rw [hnone] at hp
      cases hp
  obtain ⟨rfl, q, hl, rfl⟩ := hname.leads_of_insertion hdir hi
  have hqdir : s.state q.id = some dOccupied := by
    by_contra hno
    rw [hl.lookup, hname.plain.walk, if_pos hno] at hp
    cases hp
  obtain ⟨es, rest, hq⟩ := h.dir_of_state hqdir
  have hlook := hl.lookup_eq hname h hq
  cases hfind : lookupEntries es nm with
  | none =>
    rw [hlook, hfind] at hp
    cases hp
  | some id =>
    rw [hfind] at hlook
    have hmem : (nm, id) ∈ (Node.dir es rest).entries := List.mem_append_left _ (mem_of_lookupEntries hfind hname.ne)
    -- The erased entry is the one that was found.
    have hid : e.2 = id := by
      rw [hlook] at hq'
      dsimp only at hq'
      rw [hlook] at hq'
      rw [heq, ← Option.some.inj hq']
      rfl
    have hin : e ∈ nd₀.entries := her.entries.mem_iff.mpr List.mem_cons_self
    obtain rfl : d' = q.id := by
      rw [← (h.entry d' nd₀ e her.dir hin).parent, hid]
      exact (h.entry _ _ (nm, id) hq hmem).parent
    obtain rfl : nd₀ = .dir es rest := Option.some.inj (her.dir.symm.trans hq)
    obtain rfl : nd = nd' := by
      rw [her.node, if_neg her.not_mem, if_pos rfl] at hd
      exact (Option.some.inj hd).symm
    obtain rfl : e = (nm, id) := List.inj_on_of_nodup_map (h.ids _ _ hq) hin hmem hid
    have hnames := (her.entries.map Prod.fst).nodup_iff.mp (hJ _ _ hq)
    exact (List.nodup_cons.mp hnames).1

theorem LooksUp.follows (hok : LooksUp s pwd toks) (h : Inv s g) (hJ : g.Named List.Nodup) :
    Follows (.names List.Nodup) s g pwd toks where
  insert := fun _ d _ nd hc hi hd _ => nodup_insert (hJ d nd hd) (hok.fresh hc h hi hd)
  rm := fun _ _ _ _ _ _ => trivial
  rmdir := fun _ _ _ _ _ _ => trivial
  rewrite := fun a b p ht hp hfile => ⟨fun _ _ _ _ => trivial, fun _ _ hre d _ nd hi hd _ =>
    nodup_insert (hre.named hJ nodup_sub d nd hd) (hre.fresh h hJ (hok.old a b p ht hp hfile) hp hi hd)⟩

end

/-- In every run of safe requests that look up what they insert, the names of each directory differ. -/
theorem names_unique_of_safe_run (s : Store) (pwd : PathT)
    (h : Reached .kept (fun s pwd toks => Safe s pwd toks ∧ LooksUp s pwd toks) s pwd) :
    ∀ d, s.state d = some dOccupied → ((s.listing d).map Prod.fst).Nodup := by
  intro d hd
  obtain ⟨g, hinv, hunique, -⟩ := h.keeps (r := fun _ => .names List.Nodup) (J := fun _ _ g => g.Named List.Nodup)
    (fun _ _ _ hok => hok.1)
    (fun _ _ _ _ hinv hJ _ hok => hok.2.follows hinv hJ) (fun _ _ => .start List.nodup_nil)
    (fun _ _ _ _ _ _ hJ hc _ => hJ.step List.nodup_nil nodup_sub hc) fun _ _ _ _ _ _ hJ _ _ _ => hJ
  obtain ⟨es, rest, hnode⟩ := hinv.dir_of_state hd
  rw [hinv.listing_eq hnode]
  exact hunique d _ hnode

/-- A check of `LooksUp` for requests to create `./n`. -/
def checkLooks (s : Store) (pwd : PathT) : List Str → Bool
  | [_, a] => decide (a.take 2 = lit "./" ∧ EntryName (a.drop 2) ∧
      ∀ x ∈ s.insertion pwd a, x.2 ∉ ((s.listing x.1).drop 4).map Prod.fst)
  | _ => false

theorem looksUp_of_check {s : Store} {pwd : PathT} {toks : List Str} (h : checkLooks s pwd toks = true) :
    LooksUp s pwd toks := by
  obtain ⟨t, a, rfl⟩ : ∃ t a, toks = [t, a] := by
    unfold checkLooks at h
    split at h
    · exact ⟨_, _, rfl⟩
    · cases h
  obtain ⟨hhere, hname, hnew⟩ := of_decide_eq_true h
  refine ⟨fun a' d name hc hi => ?_, fun _ _ _ heq => by cases heq⟩
  obtain rfl : a' = a := by
    rcases hc with ⟨heq | heq, -⟩ | ⟨b, heq⟩ <;> cases heq <;> rfl
  have hdot : DotDir (lit "./") := .here .nil
  refine ⟨⟨lit "./", a'.drop 2, Or.inl hdot, hname, ?_⟩, hnew (d, name) hi⟩
  rw [← hhere, List.take_append_drop]

/-- Six files in one directory. -/
theorem names_unique_of_safe_run_six : ∃ s : Store, (s.listing 4).length = 6 ∧ ((s.listing 4).map Prod.fst).Nodup := by
  let reqs := [lit "touch ./a", lit "touch ./b", lit "touch ./c", lit "touch ./d", lit "touch ./e", lit "touch ./f"]
  let check : Store → PathT → List Str → Bool := fun s pwd toks => decide (Safe s pwd toks) && checkLooks s pwd toks
  have hpass : passAll check reqs .root emptyDisk = true := by decide +kernel
  have hdec : (serveAll reqs .root emptyDisk).map (fun r => decide ((r.2.listing 4).length = 6 ∧
      r.2.state 4 = some dOccupied)) = some true := by decide +kernel
  obtain ⟨⟨pwd, s⟩, hserve, hlen, hstate⟩ := exists_of_decide hdec
  have hok : ∀ s pwd toks, check s pwd toks = true → Safe s pwd toks ∧ LooksUp s pwd toks := fun s pwd toks h => by
    obtain ⟨hsafe, hlooks⟩ := Bool.and_eq_true_iff.mp h
    exact ⟨of_decide_eq_true hsafe, looksUp_of_check hlooks⟩
  exact ⟨s, hlen, names_unique_of_safe_run s pwd
    (.passAll (.format emptyDisk_formatted) (by decide) hok hpass hserve) 4 hstate⟩

/-- `touch d/x` inserts the name `d` once more. -/
theorem touch_below_twice : ¬∀ s pwd, Reached .all AnyRequest s pwd →
    ∀ d, s.state d = some dOccupied → ((s.listing d).map Prod.fst).Nodup := by
  intro hall
  have hdec : (serveAll [lit "mkdir d", lit "touch d/x"] .root emptyDisk).map (fun r => decide
      (r.2.listing 4 = [(lit "d", 5), (lit "d", 6)] ∧ r.2.state 4 = some dOccupied)) = some true := by decide +kernel
  obtain ⟨⟨pwd, s⟩, hserve, hlist, hstate⟩ := exists_of_decide hdec
  have hnodup := hall s pwd (.serveAll (.format emptyDisk_formatted) (by decide) (fun _ _ _ _ => trivial) hserve) 4 hstate
  rw [show s.listing 4 = _ from hlist] at hnodup
  exact absurd hnodup (by decide)

end MiniFs
