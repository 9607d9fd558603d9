import MiniFs.Theorems.Changes
import MiniFs.Theorems.Creation

/-! # The commands

What each command does to a store that keeps the invariant. The removing commands are looked at where the object has
the kind that they are made for and its entry is in the last zone of its directory. -/

namespace MiniFs
open Interact Memory

namespace Store

/-- The last zone of the chain from zone `z` on. -/
def lastZone (s : Store) : (fuel : Nat) → Layout → Int → Layout × Int
  | 0, L, z => (L, z)
  | fuel + 1, L, z => if L.next (s.zones z) = 0 then (L, z) else s.lastZone fuel dirZone (L.next (s.zones z))

/-- The parent of `id` is a directory and has the entry `id` in the last zone of its chain. -/
def Removable (s : Store) (id : Int) : Prop :=
  s.state (s.zones id).parent = some dOccupied ∧
    (findSub (s.lastZone zoneFuel dentry (s.zones id).parent).1
      (s.zones (s.lastZone zoneFuel dentry (s.zones id).parent).2) id
      (s.lastZone zoneFuel dentry (s.zones id).parent).1.subs 0).isSome

instance (s : Store) (id : Int) : Decidable (s.Removable id) := inferInstanceAs (Decidable (_ ∧ _))

/-- What `rm_file` can remove: nothing, a file, or a directory without entries. -/
def RmFileOk (s : Store) (id : Int) : Prop :=
  id < 4 ∨ s.Removable id ∧
    (s.state id = some iOccupied ∨ s.state id = some dOccupied ∧ dentry.subId (s.zones id) 0 = 0)

instance (s : Store) (id : Int) : Decidable (s.RmFileOk id) := inferInstanceAs (Decidable (_ ∨ _ ∧ _))

/-- What `rm_dir` can remove: nothing, a directory, or a file whose size is no zone that can be freed. -/
def RmDirOk (s : Store) (id : Int) : Prop :=
  id < 4 ∨ s.Removable id ∧ (s.state id = some dOccupied ∨ s.state id = some iOccupied ∧ (s.zones id).size ≤ 3)

instance (s : Store) (id : Int) : Decidable (s.RmDirOk id) := inferInstanceAs (Decidable (_ ∨ _ ∧ _))

end Store

/-- The zones that `rm_inode` frees. -/
def rmInodeIds (id : Int) (n : Node) : List Int := id :: n.own

/-- The zones that `rm_dentry` frees. -/
def rmDentryIds (id : Int) : Node → List Int
  | .dir es rest => chainIds id es rest
  | .file _ => [id]

section
variable {P : Policy} {s : Store} {g : Image} {id : Int} {n : Node} {es : List Entry} {rest : List Seg}

/-! ## What can be removed -/

theorem Chain.lastZone_entries {L : Layout} {z : Int} {fuel : Nat} (h : Chain s.zones L z es rest)
    (hfuel : rest.length < fuel) :
    (s.lastZone fuel L z).1.subs = lastSubs L rest ∧
      Entries (s.lastZone fuel L z).1 (s.zones (s.lastZone fuel L z).2) (lastEntries es rest) := by
  induction rest generalizing L z es fuel with
  | nil =>
    obtain ⟨fuel, rfl⟩ := Nat.exists_eq_succ_of_ne_zero (by omega : fuel ≠ 0)
    rw [Store.lastZone, if_pos h.2]
    exact ⟨(if_pos rfl).symm, h.1⟩
  | cons seg rest ih =>
    obtain ⟨fuel, rfl⟩ := Nat.exists_eq_succ_of_ne_zero (by omega : fuel ≠ 0)
    obtain ⟨-, -, hnext, h4, hrest⟩ := h
    rw [Store.lastZone, if_neg (by rw [hnext]; omega), hnext, lastSubs_cons]
    exact ih hrest (by simpa using hfuel)

theorem Entries.findSub_isSome {L : Layout} {z : Zone} (h : Entries L z es) (hids : (es.map Prod.snd).Nodup) :
    (findSub L z id L.subs 0).isSome ↔ ∃ e ∈ es, e.2 = id := by
  constructor
  · intro hfind
    by_contra hno
    have hnot : id ∉ es.map Prod.snd := fun hin => by
      obtain ⟨e, he, heq⟩ := List.mem_map.mp hin
      exact hno ⟨e, he, heq⟩
    rw [findSub_of_not_mem h hnot (show 0 + L.subs ≤ L.subs by omega)] at hfind
    cases hfind
  · rintro ⟨e, he, rfl⟩
    obtain ⟨k, hk, rfl⟩ := List.mem_iff_getElem.mp he
    have hle := h.le
    rw [findSub_of_getElem h hids hk rfl (Nat.zero_le _) (by omega)]
    rfl

/-- A node is removable when the directory that is its parent lists it in its last zone. -/
theorem DirTree.removable_iff (h : DirTree s g) : s.Removable id ↔
    ∃ es rest e, g.node (s.zones id).parent = some (.dir es rest) ∧ e ∈ lastEntries es rest ∧ e.2 = id := by
  have hiff : ∀ es rest, g.node (s.zones id).parent = some (.dir es rest) →
      ((findSub (s.lastZone zoneFuel dentry (s.zones id).parent).1
        (s.zones (s.lastZone zoneFuel dentry (s.zones id).parent).2) id
        (s.lastZone zoneFuel dentry (s.zones id).parent).1.subs 0).isSome ↔ ∃ e ∈ lastEntries es rest, e.2 = id) := by
    intro es rest hd
    have hchain : Chain s.zones dentry (s.zones id).parent es rest := h.placed _ _ hd
    have hids : ((lastEntries es rest).map Prod.snd).Nodup :=
      (h.ids _ _ hd).sublist (List.Sublist.map _ lastEntries_sublist)
    exact (hchain.lastZone_entries (h.length_rest hd)).2.findSub_isSome hids
  constructor
  · rintro ⟨hstate, hfind⟩
    obtain ⟨es, rest, hd⟩ := h.dir_of_state hstate
    obtain ⟨e, he, heq⟩ := (hiff es rest hd).mp hfind
    exact ⟨es, rest, e, hd, he, heq⟩
  · rintro ⟨es, rest, e, hd, he, heq⟩
    exact ⟨h.state _ _ hd, (hiff es rest hd).mpr ⟨e, he, heq⟩⟩

theorem mem_chainIds {z i : Int} : i ∈ chainIds z es rest ↔
    i = z ∨ i ∈ rest.map Prod.fst ∨ ∃ e ∈ entriesOf es rest, e.2 = i := by
  induction rest generalizing z es with
  | nil =>
    unfold chainIds entriesOf
    simp
  | cons seg rest ih =>
    have hsplit : entriesOf es (seg :: rest) = es ++ entriesOf seg.2 rest := rfl
    show i ∈ z :: es.map Prod.snd ++ chainIds seg.1 seg.2 rest ↔ _
    rw [List.mem_append, ih, List.mem_cons, List.mem_map, List.map_cons, List.mem_cons, hsplit]
    simp only [List.mem_append]
    grind

theorem length_le_ids (kids : List Kid) : kids.length ≤ (kids.flatMap (·.2.ids)).length := by
  induction kids with
  | nil => exact Nat.le_refl _
  | cons t kids ih =>
    have hpos := List.length_pos_of_mem t.2.id_mem_ids
    rw [List.flatMap_cons, List.length_append, List.length_cons]
    omega

/-- What `rm_inode` frees, for a file or a directory without a first entry. -/
theorem DirTree.rmFile_frees (h : DirTree s g) (h4 : 4 ≤ id) (hok : s.RmFileOk id) (hn : g.node id = some n) :
    Within id n (rmInodeIds id n) ∧ wp (storeSem P) (rmInode id) (fun _ s' => s.Frees (rmInodeIds id n) s') s := by
  have hwithin : Within id n (rmInodeIds id n) := ⟨List.mem_cons_self, fun z hz => by
    rcases List.mem_cons.mp hz with rfl | hz
    · exact Or.inl rfl
    · exact Or.inr (Or.inl hz)⟩
  refine ⟨hwithin, ?_⟩
  rcases hok with hlt | ⟨-, hfile | ⟨hdir, hzero⟩⟩
  · omega
  · obtain ⟨kids, hk⟩ := h.file_of_state hfile
    rw [hn] at hk
    cases hk
    exact rmInode_row (h.placed id _ hn) h4 (h.lt hn) fun z hz => Store.lt_of_state (h.own id _ hn z hz)
  · obtain ⟨es, rest, hk⟩ := h.dir_of_state hdir
    rw [hn] at hk
    cases hk
    -- A directory without a first entry has no chain.
    have hchain : Chain s.zones dentry id es rest := h.placed id _ hn
    obtain rfl : es = [] := List.eq_nil_iff_length_eq_zero.mpr
      (Nat.le_zero.mp ((hchain.entries.subId_eq_zero (by decide)).mp hzero))
    cases rest with
    | nil => exact rmInode_dir h4 (h.lt hn) hchain.1
    | cons seg rest => exact absurd hchain.2.1 (by decide)

/-- What `rm_dentry` frees, for a directory. -/
theorem DirTree.rmDentry_frees (h : DirTree s g) (hn : g.node id = some (.dir es rest)) :
    Within id (.dir es rest) (chainIds id es rest) ∧
      wp (storeSem P) (rmDentry id) (fun _ s' => s.Frees (chainIds id es rest) s') s := by
  refine ⟨⟨mem_chainIds.mpr (Or.inl rfl), fun z hz => mem_chainIds.mp hz⟩, ?_⟩
  refine rmDentry_spec (h.length_rest hn) (h.placed id _ hn) fun i hi => ?_
  rcases mem_chainIds.mp hi with rfl | hi | ⟨e, he, rfl⟩
  · exact ⟨h.le hn, h.lt hn⟩
  · exact ⟨(h.placed id _ hn).le_own i hi, Store.lt_of_state (h.own id _ hn i hi)⟩
  · obtain ⟨c, hc⟩ := (h.entry id _ e hn he).node
    exact ⟨h.le hc, h.lt hc⟩

theorem rmDir_frees (h : Inv s g) (h4 : 4 ≤ id) (hok : s.RmDirOk id) (hn : g.node id = some n) :
    Within id n (rmDentryIds id n) ∧ wp (storeSem P) (rmDentry id) (fun _ s' => s.Frees (rmDentryIds id n) s') s := by
  rcases hok with hlt | ⟨-, hdir | ⟨hfile, hsize⟩⟩
  · omega
  · obtain ⟨es, rest, hk⟩ := h.dir_of_state hdir
    rw [hn] at hk
    cases hk
    exact h.rmDentry_frees hn
  · obtain ⟨kids, hk⟩ := h.file_of_state hfile
    rw [hn] at hk
    cases hk
    obtain ⟨hrep, hsz⟩ := h.rep id _ hn
    refine ⟨⟨List.mem_singleton_self _, fun z hz => Or.inl (List.mem_singleton.mp hz)⟩, ?_⟩
    -- Each pointer of the file is a zone that counts in its size, so that there are direct pointers only.
    have hle := length_le_ids kids
    have hone : ∀ t ∈ kids, t.2.ids.length = 1 := by
      intro t ht
      obtain ⟨i, hi, rfl⟩ := List.mem_iff_getElem.mp ht
      have hlevel : kids[i].1 = 0 := by
        have hget := congrArg (fun l : List Nat => l[i]?) hrep.levels
        have hi' : ptrLevel i = 0 := if_pos (by omega)
        simpa [hi, hi'] using hget
      generalize kids[i] = t at hlevel
      obtain ⟨l, t⟩ := t
      subst hlevel
      rfl
    rw [length_flatMap_const hone, Nat.mul_one] at hsz hle
    exact rmDentry_file h4 (h.lt hn) hrep hsz (by omega)

end

/-! ## The commands on the store -/

section
variable {P : Policy} {s : Store} {g : Image} {n : Node} {pwd : PathT} {path : Str}

/-- `mk_file` and `mk_dir` -/
theorem mkNode_first (hP : P.room = true) (hS : P.slots = true) (h : Inv s g) (hpwd : pwd.Below) (hpath : NulFree path)
    {make : Int → UInt64 → Zone} (hb : Blank n make) (hn : IsState n.state)
    (hlen : ∀ d name, s.insertion pwd path = some (d, name) → name.length ≤ 9) {Q : Nat → Store → Prop}
    (hfail : s.insertion pwd path = none → Q 1 s)
    (hok : ∀ d name id nd nd' new s' g', s.insertion pwd path = some (d, name) → s.First id →
      Inserted s g d (name, id) n nd nd' new s' g' → Inv s' g' → Q 0 s') :
    wp (storeSem P) (mkNode n.state make pwd path) Q s := by
  unfold mkNode
  refine wp_bind.mpr (getPath_spec hS h.dirs hpwd hpath ?_)
  have hcut : NulFree (s.lookup pwd path).2 := lookup_nulFree hpath
  have hnone := @lookup_none s path pwd
  unfold Store.insertion at hlen hfail hok
  generalize s.lookup pwd path = r at hlen hfail hok hcut hnone
  obtain ⟨r, cut⟩ := r
  cases r with
  | some p => exact wp_ret.mpr (hfail rfl)
  | none =>
    dsimp only at hlen hfail hok hcut hnone ⊢
    obtain ⟨name, rest, hrm⟩ : ∃ name rest, rmName cut = some (name, rest) := by
      rcases hnone rfl with ⟨name, rest, q, hstem, hrm, -⟩ | ⟨name, rest, hrm, -⟩
      · exact ⟨name, rest, hstem ▸ hrm⟩
      · exact ⟨name, rest, hrm⟩
    have hname : NulFree name := fun c hc => hcut c ((rmName_sub hrm).1.mem hc)
    have hrest : NulFree rest := fun c hc => hcut c ((rmName_sub hrm).2.mem hc)
    rw [hrm] at hlen hfail hok ⊢
    refine wp_bind.mpr (wp_ret.mpr (wp_bind.mpr (getPath_spec hS h.dirs hpwd hrest ?_)))
    have hbelow := fun q => h.dirs.lookup_below (p := q) hpwd hrest
    dsimp only at hlen hfail hok ⊢
    generalize s.lookup pwd rest = r at hlen hfail hok hbelow
    obtain ⟨r, cut'⟩ := r
    cases r with
    | none => exact wp_ret.mpr (hfail rfl)
    | some q =>
      dsimp only at hlen hfail hok hbelow ⊢
      obtain ⟨b, hb'⟩ := (hbelow q rfl).state (s := s)
      refine wp_bind.mpr (getState_spec hb' ?_)
      by_cases hdir : b = dOccupied
      · subst hdir
        rw [if_pos hb'] at hlen hfail hok
        rw [if_neg (not_not.mpr rfl)]
        obtain ⟨es, rest, hd⟩ := h.dir_of_state hb'
        exact enter_first hP h hd hb hn hname (hlen _ _ rfl) fun id nd' new s' g' => hok _ _ id _ nd' new s' g' rfl
      · rw [if_neg fun hs => hdir (Option.some.inj (hb'.symm.trans hs))] at hfail
        rw [if_pos hdir]
        exact wp_ret.mpr (hfail rfl)

theorem mkNode_spec (hP : P.room = true) (hS : P.slots = true) (h : Inv s g) (hpwd : pwd.Below) (hpath : NulFree path)
    {make : Int → UInt64 → Zone} (hb : Blank n make) (hn : IsState n.state)
    (hlen : ∀ d name, s.insertion pwd path = some (d, name) → name.length ≤ 9) {Q : Nat → Store → Prop}
    (hfail : s.insertion pwd path = none → Q 1 s)
    (hok : ∀ d name id nd nd' new s' g', s.insertion pwd path = some (d, name) →
      Inserted s g d (name, id) n nd nd' new s' g' → Inv s' g' → Q 0 s') :
    wp (storeSem P) (mkNode n.state make pwd path) Q s :=
  mkNode_first hP hS h hpwd hpath hb hn hlen hfail fun d name id nd nd' new s' g' hi _ => hok d name id nd nd' new s' g' hi

/-- `rm_file` and `rm_dir`, where `ids` are the zones that `rm` frees. -/
theorem rmNode_swap (hS : P.slots = true) (h : Inv s g) (hpwd : pwd.Below) (hpath : NulFree path) {rm : Int → FsM Unit}
    {ids : Int → Node → List Int} {Q : Nat × Str → Store → Prop}
    (hrm : ∀ p n, (s.lookup pwd path).1 = some p → 4 ≤ p.id → g.node p.id = some n → Within p.id n (ids p.id n) ∧
      wp (storeSem P) (rm p.id) (fun _ s' => s.Frees (ids p.id n) s') s)
    (hremovable : ∀ p, (s.lookup pwd path).1 = some p → 4 ≤ p.id → s.Removable p.id)
    (hfail : (∀ p, (s.lookup pwd path).1 = some p → p.id < 4) → Q (1, (s.lookup pwd path).2) s)
    (hok : ∀ p n d e nd nd' s' g', (s.lookup pwd path).1 = some p → g.node p.id = some n → e.2 = p.id →
      Erased s g d e nd nd' (ids p.id n) s' g' → Inv s' g' →
      (∃ i, nd.entries[i]? = some e ∧ nd'.entries = swapRemove nd.entries i) → Q (0, (s.lookup pwd path).2) s') :
    wp (storeSem P) (rmNode rm pwd path) Q s := by
  unfold rmNode
  refine wp_bind.mpr (getPath_spec hS h.dirs hpwd hpath ?_)
  generalize s.lookup pwd path = r at hrm hremovable hfail hok
  obtain ⟨r, cut⟩ := r
  cases r with
  | none => exact wp_ret.mpr (hfail nofun)
  | some p =>
    dsimp only at hrm hremovable hfail hok ⊢
    by_cases h4 : 4 ≤ p.id
    · refine wp_bind.mpr (readZone_spec h4 ?_)
      obtain ⟨es, rest, e, hd, he, heq⟩ := h.removable_iff.mp (hremovable p rfl h4)
      obtain ⟨n, hn⟩ := (h.entry _ _ e hd (lastEntries_subset e he)).node
      rw [heq] at hn
      obtain ⟨hwithin, hfrees⟩ := hrm p n rfl h4 hn
      have herase := h.erase_swap hn hd he heq hwithin hfrees (Q := fun _ => Q (0, cut)) fun nd' s' g' her _ hinv _ =>
        hok p n _ e _ nd' s' g' rfl hn heq her (hinv h)
      exact wp_bind.mpr (wp_mono (wp_bind.mp herase) fun _ _ h' => wp_bind.mpr (wp_mono h' fun _ _ hQ => wp_ret.mpr hQ))
    · refine wp_bind.mpr (readZone_null (by omega) (wp_ret.mpr (hfail fun q hq => ?_)))
      cases hq
      omega

theorem rmNode_spec (hS : P.slots = true) (h : Inv s g) (hpwd : pwd.Below) (hpath : NulFree path) {rm : Int → FsM Unit}
    {ids : Int → Node → List Int} {Q : Nat × Str → Store → Prop}
    (hrm : ∀ p n, (s.lookup pwd path).1 = some p → 4 ≤ p.id → g.node p.id = some n → Within p.id n (ids p.id n) ∧
      wp (storeSem P) (rm p.id) (fun _ s' => s.Frees (ids p.id n) s') s)
    (hremovable : ∀ p, (s.lookup pwd path).1 = some p → 4 ≤ p.id → s.Removable p.id)
    (hfail : (∀ p, (s.lookup pwd path).1 = some p → p.id < 4) → Q (1, (s.lookup pwd path).2) s)
    (hok : ∀ p n d e nd nd' s' g', (s.lookup pwd path).1 = some p → g.node p.id = some n → e.2 = p.id →
      Erased s g d e nd nd' (ids p.id n) s' g' → Inv s' g' → Q (0, (s.lookup pwd path).2) s') :
    wp (storeSem P) (rmNode rm pwd path) Q s :=
  rmNode_swap hS h hpwd hpath hrm hremovable hfail fun p n d e nd nd' s' g' hp hn heq her hinv _ =>
    hok p n d e nd nd' s' g' hp hn heq her hinv

/-- `append` -/
theorem append_text (hP : P.room = true) (hS : P.slots = true) (h : Inv s g) (hpwd : pwd.Below) (hpath : NulFree path)
    {str : Str} (hstr : NulFree str) (hshort : str.length < 2 ^ 15) {Q : Nat → Store → Prop}
    (hfail : (∀ p, (s.lookup pwd path).1 = some p → s.state p.id ≠ some iOccupied) → Q 1 s)
    (hnil : ∀ p, (s.lookup pwd path).1 = some p → s.state p.id = some iOccupied → str = [] → Q 0 s)
    (hok : ∀ p kids kids' new s' g', (s.lookup pwd path).1 = some p → s.state p.id = some iOccupied →
      Extended s g p.id kids kids' new s' g' → Inv s' g' →
      content kids' = content kids ++ str.take (min str.length (fileRoom kids)) → Q 0 s') :
    wp (storeSem P) (append pwd path str) Q s := by
  have hbelow := fun q => h.dirs.lookup_below (p := q) hpwd hpath
  unfold append
  refine wp_bind.mpr (getPath_spec hS h.dirs hpwd hpath ?_)
  generalize s.lookup pwd path = r at hbelow hfail hnil hok
  obtain ⟨r, cut⟩ := r
  cases r with
  | none => exact wp_ret.mpr (hfail nofun)
  | some p =>
    dsimp only at hbelow hfail hnil hok ⊢
    obtain ⟨b, hb⟩ := (hbelow p rfl).state (s := s)
    refine wp_bind.mpr (getState_spec hb ?_)
    by_cases hfile : b = iOccupied
    · subst hfile
      rw [if_neg (not_not.mpr rfl)]
      refine wp_bind.mpr (readZone_spec (Store.le_of_state hb (by decide)) ?_)
      dsimp only
      obtain ⟨kids, hk⟩ := h.file_of_state hb
      by_cases hne : str = []
      · rw [if_neg (by rw [hne]; decide)]
        exact wp_ret.mpr (hnil p rfl hb hne)
      · rw [if_pos (List.length_pos_of_ne_nil hne)]
        have hext := extend_text hP h hk hne hstr hshort (Q := fun _ => Q 0) fun kids' new s' g' hx hinv =>
          hok p kids kids' new s' g' rfl hb hx hinv
        unfold appendTo at hext
        exact wp_bind.mpr (wp_mono (wp_bind.mp hext) fun _ _ h' => wp_bind.mpr (wp_mono h' fun _ _ hQ => wp_ret.mpr hQ))
    · rw [if_pos hfile]
      refine wp_ret.mpr (hfail fun q hq hs => ?_)
      cases hq
      exact hfile (Option.some.inj (hb.symm.trans hs))

theorem append_spec (hP : P.room = true) (hS : P.slots = true) (h : Inv s g) (hpwd : pwd.Below) (hpath : NulFree path)
    {str : Str} (hstr : NulFree str) (hshort : str.length < 2 ^ 15) {Q : Nat → Store → Prop}
    (hfail : (∀ p, (s.lookup pwd path).1 = some p → s.state p.id ≠ some iOccupied) → Q 1 s)
    (hnil : ∀ p, (s.lookup pwd path).1 = some p → s.state p.id = some iOccupied → str = [] → Q 0 s)
    (hok : ∀ p kids kids' new s' g', (s.lookup pwd path).1 = some p → s.state p.id = some iOccupied →
      Extended s g p.id kids kids' new s' g' → Inv s' g' → Q 0 s') :
    wp (storeSem P) (append pwd path str) Q s :=
  append_text hP hS h hpwd hpath hstr hshort hfail hnil fun p kids kids' new s' g' hp hs hext hinv _ =>
    hok p kids kids' new s' g' hp hs hext hinv

/-- `change` -/
theorem change_spec (hS : P.slots = true) (h : Inv s g) (hpwd : pwd.Below) (hpath : NulFree path)
    {Q : Nat × PathT → Store → Prop} (hfail : Q (1, pwd) s)
    (hok : ∀ p, (s.lookup pwd path).1 = some p → s.state p.id = some dOccupied → Q (0, p) s) :
    wp (storeSem P) (change pwd path) Q s := by
  have hbelow := fun q => h.dirs.lookup_below (p := q) hpwd hpath
  unfold change
  refine wp_bind.mpr (getPath_spec hS h.dirs hpwd hpath ?_)
  generalize s.lookup pwd path = r at hbelow hok
  obtain ⟨r, cut⟩ := r
  cases r with
  | none => exact wp_ret.mpr hfail
  | some p =>
    obtain ⟨b, hb⟩ := (hbelow p rfl).state (s := s)
    refine wp_bind.mpr (getState_spec hb ?_)
    by_cases hdir : b = dOccupied
    · rw [if_neg (not_not.mpr hdir)]
      exact wp_ret.mpr (hok p rfl (hdir ▸ hb))
    · rw [if_pos hdir]
      exact wp_ret.mpr hfail

end

end MiniFs
