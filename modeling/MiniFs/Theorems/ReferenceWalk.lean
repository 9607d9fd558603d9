import MiniFs.Theorems.Removal
import MiniFs.Theorems.Resolution

/-! # The walk that a path stands for

A path is a walk over the tree: up to the parent for two dots, and down to the entry of that name, wherever it is in the
chain of the directory. `get_path` looks at the first four entries of a directory and at the memory behind them, and
takes an empty component for a name unless it is the last one. -/

namespace MiniFs
open Interact Memory

namespace Store

/-- Where the components lead from zone `i`. -/
def refWalk (s : Store) : Int → List Str → Option Int
  | i, [] => some i
  | i, c :: cs =>
    if c = [] ∨ c = lit "." then s.refWalk i cs
    else if c = lit ".." then if i = 4 then none else s.refWalk (s.zones i).parent cs
    else if s.state i ≠ some dOccupied then none
    else match (s.listing i).find? (·.1 = c) with
      | none => none
      | some e => s.refWalk e.2 cs

/-- The id that a path leads to. -/
def refResolve (s : Store) (pwd : PathT) (path : Str) : Option Int := s.refWalk (startNode pwd path).id (startPath path)

/-- As far as the walk goes, each name is that of one of the first four entries of its directory, and no component but
    the last one is empty. -/
def Shallow (s : Store) : Int → List Str → Prop
  | _, [] => True
  | i, c :: cs =>
    if c = [] then cs = []
    else if c = lit "." then s.Shallow i cs
    else if c = lit ".." then i = 4 ∨ s.Shallow (s.zones i).parent cs
    else s.state i ≠ some dOccupied ∨ ∃ e, ((s.listing i).take 4).find? (·.1 = c) = some e ∧ s.Shallow e.2 cs

end Store

/-- `get_path` returns a node exactly when the walk succeeds, and one with the id that the walk leads to. -/
def ResolvesRight (mem : Zone → Str → Nat → Byte) (s : Store) (pwd : PathT) (path : Str) : Prop :=
  (resolve mem s pwd path).map (fun r => r.1.map PathT.id) = some (s.refResolve pwd path)

/-- A path up to the end of a component, with or without the slash after it. -/
def InitialPart (pre path : Str) : Prop :=
  ∃ rest, path = pre ++ rest ∧ (rest = [] ∨ rest.head? = some slash ∨ pre.getLast? = some slash)

/-! ## One component -/

/-- The chain leads down from the root: each node is an entry of the one before it. -/
inductive Image.Chained (g : Image) : PathT → Prop where
  | root : Chained g .root
  | node {p : PathT} {n : Node} {e : Entry} (h : Chained g p) (dir : g.node p.id = some n) (mem : e ∈ n.entries) :
      Chained g (.node e.2 p)

/-- The walk over the components and the one that they stand for have the same outcome. -/
def WalksRight (mem : Zone → Str → Nat → Byte) (s : Store) (p : PathT) (cs : List Str) : Prop :=
  (s.trace mem p cs).map (fun r => r.1.map PathT.id) = some (s.refWalk p.id cs)

section
variable {mem : Zone → Str → Nat → Byte} {s : Store} {g : Image} {p q : PathT} {i : Int} {n : Node} {c : Str}
  {cs cs' : List Str} {es : List Entry} {rest : List Seg} {e : Entry}

theorem Image.Leads.chained (hl : g.Leads p) : g.Chained p := by
  induction p with
  | root => exact .root
  | node id prev ih =>
    obtain ⟨nd, e, hd, he, rfl⟩ := hl.entry id prev (PathT.self_mem _)
    exact .node (ih hl.prev) hd he

theorem Image.Chained.node' (hp : g.Chained p) (h : DirTree s g) : ∃ n, g.node p.id = some n := by
  cases hp with
  | root =>
    obtain ⟨n, hn, -⟩ := h.root
    exact ⟨n, hn⟩
  | node _ hd he => exact (h.entry _ _ _ hd he).node

theorem refWalk_dot : s.refWalk i (lit "." :: cs) = s.refWalk i cs := by
  rw [Store.refWalk, if_pos (Or.inr rfl)]

theorem refWalk_nil : s.refWalk i ([] :: cs) = s.refWalk i cs := by
  rw [Store.refWalk, if_pos (Or.inl rfl)]

theorem refWalk_dots : s.refWalk i (lit ".." :: cs) = if i = 4 then none else s.refWalk (s.zones i).parent cs := by
  rw [Store.refWalk, if_neg (by decide), if_pos rfl]

theorem refWalk_file (hnil : c ≠ []) (hc : NotDots c cs) (hstate : s.state i ≠ some dOccupied) :
    s.refWalk i (c :: cs) = none := by
  rw [Store.refWalk, if_neg (not_or.mpr ⟨hnil, hc.dot⟩), if_neg hc.dots, if_pos hstate]

theorem refWalk_name (hnil : c ≠ []) (hc : NotDots c cs) (hstate : s.state i = some dOccupied) :
    s.refWalk i (c :: cs) = ((s.listing i).find? (·.1 = c)).bind fun e => s.refWalk e.2 cs := by
  rw [Store.refWalk, if_neg (not_or.mpr ⟨hnil, hc.dot⟩), if_neg hc.dots, if_neg (not_not.mpr hstate)]
  cases (s.listing i).find? (·.1 = c) <;> rfl

theorem shallow_nil : s.Shallow i ([] :: cs) ↔ cs = [] := by
  rw [Store.Shallow, if_pos rfl]

theorem shallow_dot : s.Shallow i (lit "." :: cs) ↔ s.Shallow i cs := by
  rw [Store.Shallow, if_neg (by decide), if_pos rfl]

theorem shallow_dots : s.Shallow i (lit ".." :: cs) ↔ i = 4 ∨ s.Shallow (s.zones i).parent cs := by
  rw [Store.Shallow, if_neg (by decide), if_neg (by decide), if_pos rfl]

theorem shallow_name (hnil : c ≠ []) (hc : NotDots c cs) : s.Shallow i (c :: cs) ↔
    s.state i ≠ some dOccupied ∨ ∃ e, ((s.listing i).take 4).find? (·.1 = c) = some e ∧ s.Shallow e.2 cs := by
  rw [Store.Shallow, if_neg hnil, if_neg hc.dot, if_neg hc.dots]

/-- The dentry holds the first four entries. -/
theorem DirTree.take_listing (h : DirTree s g) (hn : g.node i = some (.dir es rest)) : (s.listing i).take 4 = es := by
  have hchain : Chain s.zones dentry i es rest := h.placed i _ hn
  have hle : es.length ≤ 4 := hchain.entries.le
  rw [h.listing_eq hn]
  unfold entriesOf
  cases rest with
  | nil => simpa using hle
  | cons seg rest =>
    have hfull : es.length = 4 := hchain.2.1
    rw [← hfull, List.take_left]

/-- One of the first four entries is found, whatever lies above them. -/
theorem DirTree.sub_found (h : DirTree s g) (hn : g.node p.id = some (.dir es rest)) (hname : NulFree c)
    (hfind : es.find? (·.1 = c) = some e) : s.sub mem p c = some (some (.node e.2 p)) := by
  have hentries : Entries dentry (s.zones p.id) es := Chain.entries (h.placed p.id _ hn)
  have hsub : s.lookupSub p.id c = some e.2 := by
    rw [lookupSub_eq hentries hname, lookupEntries, hfind]
  obtain ⟨k, hscan, hid⟩ := Option.map_eq_some_iff.mp hsub
  have hk : k < 4 := (le_of_scanSubs hscan).2
  have hlen := (hentries.hasStr hk).2
  rw [slotName_of_scanSubs hentries hname (show 0 + 4 ≤ 4 by omega) hscan] at hlen
  have hoff : dentry.idOff k + 1 < 64 := by
    show 6 + 12 * k + 1 < 64
    omega
  unfold Store.sub
  dsimp only
  rw [scanSubs_found hentries hname hscan]
  dsimp only
  rw [if_pos (by omega), frame_eq hoff, frame_eq (by omega)]
  exact congrArg (fun i => some (some (PathT.node i p))) hid

/-- What is not among them is looked for in the six slots after them. -/
theorem DirTree.sub_beyond (h : DirTree s g) (hn : g.node p.id = some (.dir es rest)) (hname : NulFree c) (hnil : c ≠ [])
    (hfind : es.find? (·.1 = c) = none) {above : Nat → Byte} : scanSubs (frame (s.zones p.id) above) c 10 0 =
      scanSubs (frame (s.zones p.id) above) c 6 4 := by
  have hentries : Entries dentry (s.zones p.id) es := Chain.entries (h.placed p.id _ hn)
  have hsub : s.lookupSub p.id c = none := by
    rw [lookupSub_eq hentries hname, lookupEntries, hfind]
    exact if_neg fun h => hnil h.1
  exact scanSubs_beyond hentries hname (Option.map_eq_none_iff.mp hsub)

/-! ## The walk is right -/

theorem walksRight_dot : WalksRight mem s p (lit "." :: cs) ↔ WalksRight mem s p cs := by
  unfold WalksRight
  rw [trace_dot, Option.map_map, refWalk_dot]
  rfl

theorem walksRight_top (hprev : p.prev = none) : WalksRight mem s p (lit ".." :: cs) := by
  unfold WalksRight
  rw [trace_top hprev, refWalk_dots]
  cases p with
  | root => rfl
  | node id prev => cases hprev

/-- A step up from a node that is not the root. -/
theorem Image.Chained.up (hp : g.Chained p) (h : DirTree s g) (hprev : p.prev = some q) :
    g.Chained q ∧ p.id ≠ 4 ∧ (s.zones p.id).parent = q.id := by
  cases hp with
  | root => cases hprev
  | node hq hd he =>
    cases hprev
    have hentry := h.entry _ _ _ hd he
    exact ⟨hq, hentry.ne, hentry.parent⟩

theorem walksRight_dots (hp : g.Chained p) (h : DirTree s g) (hprev : p.prev = some q) :
    WalksRight mem s p (lit ".." :: cs) ↔ WalksRight mem s q cs := by
  obtain ⟨-, hne, hparent⟩ := hp.up h hprev
  unfold WalksRight
  rw [trace_dots hprev, Option.map_map, refWalk_dots, if_neg hne, hparent]
  rfl

theorem walksRight_file (hnil : c ≠ []) (hc : NotDots c cs) (hn : g.node p.id = some n) (h : DirTree s g)
    (hstate : s.state p.id ≠ some dOccupied) : WalksRight mem s p (c :: cs) := by
  unfold WalksRight
  rw [trace_file hc (h.state _ n hn) fun heq => hstate (heq ▸ h.state _ n hn), refWalk_file hnil hc hstate]
  rfl

theorem walksRight_found (h : DirTree s g) (hn : g.node p.id = some (.dir es rest)) (hname : NulFree c) (hnil : c ≠ [])
    (hc : NotDots c cs) (hfind : es.find? (·.1 = c) = some e) :
    WalksRight mem s p (c :: cs) ↔ WalksRight mem s (.node e.2 p) cs := by
  have hstate := h.state _ _ hn
  have hlist : (s.listing p.id).find? (·.1 = c) = some e := by
    rw [h.listing_eq hn]
    unfold entriesOf
    rw [List.find?_append, hfind, Option.some_or]
  unfold WalksRight
  rw [trace_dir hc hstate, h.sub_found hn hname hfind, refWalk_name hnil hc hstate, hlist]
  dsimp only
  rw [Option.map_map]
  rfl

theorem Store.Shallow.walksRight (h : DirTree s g) (hp : g.Chained p) (hcs : ∀ c ∈ cs, NulFree c) (hs : s.Shallow p.id cs) :
    WalksRight mem s p cs := by
  induction cs generalizing p with
  | nil => rfl
  | cons c cs ih =>
    obtain ⟨n, hn⟩ := hp.node' h
    have hrest : ∀ d ∈ cs, NulFree d := fun d hd => hcs d (List.mem_cons_of_mem _ hd)
    by_cases hnil : c = []
    · subst hnil
      obtain rfl := shallow_nil.mp hs
      rfl
    by_cases hdot : c = lit "."
    · subst hdot
      exact walksRight_dot.mpr (ih hp hrest (shallow_dot.mp hs))
    by_cases hdots : c = lit ".."
    · subst hdots
      cases hprev : p.prev with
      | none => exact walksRight_top hprev
      | some q =>
        obtain ⟨hq, hne, hparent⟩ := hp.up h hprev
        exact (walksRight_dots hp h hprev).mpr (ih hq hrest (hparent ▸ (shallow_dots.mp hs).resolve_left hne))
    have hc : NotDots c cs := ⟨fun h => hnil h.1, hdot, hdots⟩
    by_cases hstate : s.state p.id = some dOccupied
    · obtain ⟨es, rest, hd⟩ := h.dir_of_state hstate
      obtain ⟨e, hfind, hs⟩ := ((shallow_name hnil hc).mp hs).resolve_left (not_not.mpr hstate)
      rw [h.take_listing hd] at hfind
      have hsub : g.Chained (.node e.2 p) := .node hp hd (List.mem_append_left _ (List.mem_of_find?_eq_some hfind))
      exact (walksRight_found h hd (hcs c List.mem_cons_self) hnil hc hfind).mpr (ih hsub hrest hs)
    · exact walksRight_file hnil hc hn h hstate

/-! ## The walk is not right -/

/-- What the fifth slot shows is the name in the time of the dentry and the id in its `next` field. -/
theorem sub_fifth (hid : ∀ idx, scanSubs (frame (s.zones p.id) (mem (s.zones p.id) c)) c 10 0 = some idx → idx = 4) :
    s.sub mem p c = none ∨ s.sub mem p c = some none ∨ s.sub mem p c = some
      (some (.node (dentry.next (s.zones p.id)) p)) := by
  unfold Store.sub
  dsimp only
  cases hscan : scanSubs (frame (s.zones p.id) (mem (s.zones p.id) c)) c 10 0 with
  | none => exact Or.inr (Or.inl rfl)
  | some idx =>
    obtain rfl := hid idx hscan
    dsimp only
    split
    · refine Or.inr (Or.inr ?_)
      have h1 : dentry.idOff 4 = 54 := rfl
      rw [h1, frame_eq (by omega), frame_eq (by omega)]
      rfl
    · exact Or.inl rfl

/-- The `next` field names no directory and no file. -/
theorem DirTree.next_ne (h : DirTree s g) (hd : g.node i = some (.dir es rest)) {j : Int} (hn : g.node j = some n) :
    dentry.next (s.zones i) ≠ j := by
  have hchain : Chain s.zones dentry i es rest := h.placed i _ hd
  cases rest with
  | nil =>
    have := h.le hn
    rw [hchain.2]
    omega
  | cons seg rest =>
    rw [hchain.2.2.1]
    exact (h.ne_own hn hd List.mem_cons_self).symm

theorem eqStr_of_scanSubs {m : Nat → Byte} {name : Str} {k j l : Nat} (hk : scanSubs m name l j = some k) :
    eqStr m (dentry.nameOff k) name = true := by
  induction l generalizing j with
  | zero => cases hk
  | succ l ih =>
    rw [scanSubs] at hk
    split at hk
    · cases hk
      assumption
    · exact ih hk

/-- A memory that repeats a byte other than the first one of the name does not show the name. -/
theorem scan_above {z : Zone} {name : Str} {b : Byte} {k j l : Nat} (hb : b ≠ name.getD 0 0)
    (hk : scanSubs (frame z fun _ => b) name l j = some k) : k ≤ 4 := by
  obtain ⟨hbytes, hnul⟩ := eqStr_iff.mp (eqStr_of_scanSubs hk)
  have hoff : dentry.nameOff k = 6 + 12 * k + 2 := rfl
  by_contra hlt
  have habove : ∀ i, frame z (fun _ => b) (dentry.nameOff k + i) = b := fun i => if_neg (by omega)
  cases name with
  | nil => exact hb ((habove 0).symm.trans hnul)
  | cons a name => exact hb ((habove 0).symm.trans (hbytes 0 (Nat.succ_pos _)))

def otherByte (b : Byte) : Byte := if b = 0 then 1 else 0

theorem otherByte_ne (b : Byte) : otherByte b ≠ b := by
  unfold otherByte
  split
  · rename_i hb
    rw [hb]
    decide
  · rename_i hb
    exact fun h => hb h.symm

/-- A memory that shows the name in the sixth slot. -/
theorem scan_shown (z : Zone) (name : Str) :
    scanSubs (frame z fun i => if i < 4 then 0 else name.getD (i - 4) 0) name 6 4 ≠ none := by
  have hshown : eqStr (frame z fun i => if i < 4 then 0 else name.getD (i - 4) 0) (dentry.nameOff 5) name = true := by
    have hbyte : ∀ i, frame z (fun i => if i < 4 then 0 else name.getD (i - 4) 0) (dentry.nameOff 5 + i) = name.getD i 0 := by
      intro i
      have hoff : dentry.nameOff 5 = 68 := rfl
      rw [frame, if_neg (by omega), if_neg (by omega), hoff, show 68 + i - 64 - 4 = i by omega]
    refine eqStr_iff.mpr ⟨fun i _ => hbyte i, (hbyte _).trans ?_⟩
    rw [List.getD_eq_getElem?_getD, List.getElem?_eq_none (Nat.le_refl _)]
    rfl
  rw [scanSubs]
  split
  · exact Option.some_ne_none _
  · rw [scanSubs, if_pos hshown]
    exact Option.some_ne_none _

/-- A name that is right whatever the memory holds is that of one of the first four entries. -/
theorem DirTree.found_of_right (h : DirTree s g) (hd : g.node p.id = some (.dir es rest)) (hname : NulFree c) (hnil : c ≠ [])
    (hc : NotDots c []) (hright : ∀ mem, WalksRight mem s p [c]) : ∃ e, es.find? (·.1 = c) = some e := by
  by_contra hno
  have hfind : es.find? (·.1 = c) = none := Option.eq_none_iff_forall_ne_some.mpr fun e he => hno ⟨e, he⟩
  have hstate := h.state _ _ hd
  have hsub : ∀ mem, (s.sub mem p c).map (Option.map PathT.id) = some (((s.listing p.id).find? (·.1 = c)).map Prod.snd) := by
    intro mem
    have hmem := hright mem
    have href : ((s.listing p.id).find? (·.1 = c)).bind (fun e => s.refWalk e.2 []) =
        ((s.listing p.id).find? (·.1 = c)).map Prod.snd := Option.map_eq_bind.symm
    unfold WalksRight at hmem
    rw [trace_dir hc hstate, refWalk_name hnil hc hstate, href] at hmem
    rw [← hmem]
    cases s.sub mem p c with
    | none => rfl
    | some o => cases o <;> rfl
  cases hlist : (s.listing p.id).find? (·.1 = c) with
  | none =>
    -- The memory may show the name.
    have hshown := hsub fun _ name i => if i < 4 then 0 else name.getD (i - 4) 0
    unfold Store.sub at hshown
    dsimp only at hshown
    rw [h.sub_beyond hd hname hnil hfind, hlist] at hshown
    cases hscan : scanSubs (frame (s.zones p.id) fun i => if i < 4 then 0 else c.getD (i - 4) 0) c 6 4 with
    | none => exact scan_shown _ _ hscan
    | some k =>
      rw [hscan] at hshown
      dsimp only at hshown
      split at hshown
      · cases hshown
      · cases hshown
  | some e =>
    -- The entry is in the chain, and the memory may not show the name.
    have hmem : e ∈ entriesOf es rest := h.listing_eq hd ▸ List.mem_of_find?_eq_some hlist
    obtain ⟨m, hm⟩ := (h.entry _ _ e hd hmem).node
    have hmiss := hsub fun _ name _ => otherByte (name.getD 0 0)
    have hfive : ∀ idx, scanSubs (frame (s.zones p.id) fun _ => otherByte (c.getD 0 0)) c 10 0 = some idx → idx = 4 := by
      intro idx hidx
      rw [h.sub_beyond hd hname hnil hfind] at hidx
      have := scan_above (otherByte_ne _) hidx
      have := (le_of_scanSubs hidx).1
      omega
    rw [hlist] at hmiss
    rcases @sub_fifth (fun _ name _ => otherByte (name.getD 0 0)) s p c hfive with hnone | hnone | hnext
    · rw [hnone] at hmiss
      cases hmiss
    · rw [hnone] at hmiss
      cases hmiss
    · rw [hnext] at hmiss
      exact h.next_ne hd hm (Option.some.inj (Option.some.inj hmiss))

/-- An empty name leads to no node at all or to another zone than that of the directory. -/
theorem DirTree.empty_name (h : DirTree s g) (hd : g.node p.id = some (.dir es rest)) {r : Option PathT}
    (hsub : s.sub (fun _ _ _ => 1) p [] = some r) : r.map PathT.id ≠ some p.id := by
  have hentries : Entries dentry (s.zones p.id) es := Chain.entries (h.placed p.id _ hd)
  have h4 := h.le hd
  unfold Store.sub at hsub
  dsimp only at hsub
  cases hscan : scanSubs (frame (s.zones p.id) fun _ => 1) [] 10 0 with
  | none =>
    rw [hscan] at hsub
    cases hsub
    exact (Option.some_ne_none _).symm
  | some idx =>
    rw [hscan] at hsub
    have hidx : idx ≤ 4 := scan_above (by decide) hscan
    have hoff : dentry.idOff idx + 1 < 64 := by
      show 6 + 12 * idx + 1 < 64
      omega
    dsimp only at hsub
    rw [if_pos (by decide), frame_eq hoff, frame_eq (by omega)] at hsub
    cases hsub
    intro heq
    have hid : dentry.subId (s.zones p.id) idx = p.id := Option.some.inj heq
    rcases Nat.lt_or_eq_of_le hidx with hlt | rfl
    · by_cases hused : idx < es.length
      · have hmem := List.mem_append_left (rest.flatMap Prod.snd) (List.getElem_mem hused)
        have hentry := h.entry p.id _ es[idx] hd hmem
        have hrank := hentry.rank
        rw [← (hentries.get hused).1, hid] at hrank
        exact Nat.lt_irrefl _ hrank
      · rw [(hentries.subId_eq_zero hlt).mpr (by omega)] at hid
        omega
    · exact h.next_ne hd hd hid

theorem DirTree.not_right_empty (h : DirTree s g) (hn : g.node p.id = some n) :
    ¬WalksRight (fun _ _ _ => 1) s p [[], []] := by
  have hc : NotDots [] [[]] := ⟨fun h => List.cons_ne_nil _ _ h.2, by decide, by decide⟩
  have href : s.refWalk p.id [[], []] = some p.id := by rw [refWalk_nil, refWalk_nil, Store.refWalk]
  unfold WalksRight
  rw [href]
  intro hright
  by_cases hstate : s.state p.id = some dOccupied
  · obtain ⟨es, rest, hd⟩ := h.dir_of_state hstate
    rw [trace_dir hc hstate] at hright
    cases hsub : s.sub (fun _ _ _ => 1) p [] with
    | none =>
      rw [hsub] at hright
      cases hright
    | some r =>
      have hne := h.empty_name hd hsub
      rw [hsub] at hright
      cases r with
      | none => cases hright
      | some q => exact hne (Option.some.inj hright)
  · rw [trace_file hc (h.state _ n hn) fun heq => hstate (heq ▸ h.state _ n hn)] at hright
    cases hright

/-! ## Parts of a path -/

/-- The first components, or these with an empty one after them in place of a further one. -/
def Part (cs' cs : List Str) : Prop := cs' ≠ [] ∧ cs' <+: cs ∨ ∃ ds, cs' = ds ++ [[]] ∧ ds <+: cs ∧ ds ≠ cs

theorem Part.cons (h : Part cs' cs) : Part (c :: cs') (c :: cs) := by
  rcases h with ⟨-, hpre⟩ | ⟨ds, rfl, hpre, hne⟩
  · exact Or.inl ⟨List.cons_ne_nil _ _, (List.prefix_cons_inj c).mpr hpre⟩
  · exact Or.inr ⟨c :: ds, rfl, (List.prefix_cons_inj c).mpr hpre, fun heq => hne (List.cons.inj heq).2⟩

/-- A part of a path with a first component is empty, or has this one first. -/
theorem Part.of_cons (h : Part cs' (c :: cs)) : cs' = [[]] ∨ cs' = [c] ∨ ∃ ds, cs' = c :: ds ∧ Part ds cs := by
  rcases h with ⟨hne, hpre⟩ | ⟨ds, rfl, hpre, hne⟩
  · obtain ⟨d, ds, rfl⟩ := List.exists_cons_of_ne_nil hne
    obtain ⟨rfl, htail⟩ := List.cons_prefix_cons.mp hpre
    by_cases hnil : ds = []
    · exact Or.inr (Or.inl (hnil ▸ rfl))
    · exact Or.inr (Or.inr ⟨ds, rfl, Or.inl ⟨hnil, htail⟩⟩)
  · cases ds with
    | nil => exact Or.inl rfl
    | cons d ds =>
      obtain ⟨rfl, htail⟩ := List.cons_prefix_cons.mp hpre
      exact Or.inr (Or.inr ⟨_, rfl, Or.inr ⟨ds, rfl, htail, fun heq => hne (heq ▸ rfl)⟩⟩)

theorem Store.Shallow.part (hs : s.Shallow i cs) (h : Part cs' cs) : s.Shallow i cs' := by
  induction cs generalizing i cs' with
  | nil =>
    rcases h with ⟨hne, hpre⟩ | ⟨ds, -, hpre, hne⟩
    · exact absurd (List.prefix_nil.mp hpre) hne
    · exact absurd (List.prefix_nil.mp hpre) hne
  | cons c cs ih =>
    rcases h.of_cons with rfl | hone
    · exact shallow_nil.mpr rfl
    by_cases hnil : c = []
    · subst hnil
      obtain rfl := shallow_nil.mp hs
      rcases hone with rfl | ⟨ds, rfl, hds⟩
      · exact hs
      · rcases hds with ⟨hne, hpre⟩ | ⟨ds', -, hpre, hne⟩
        · exact absurd (List.prefix_nil.mp hpre) hne
        · exact absurd (List.prefix_nil.mp hpre) hne
    by_cases hdot : c = lit "."
    · subst hdot
      rcases hone with rfl | ⟨ds, rfl, hds⟩
      · exact shallow_dot.mpr trivial
      · exact shallow_dot.mpr (ih (shallow_dot.mp hs) hds)
    by_cases hdots : c = lit ".."
    · subst hdots
      rcases hone with rfl | ⟨ds, rfl, hds⟩
      · exact shallow_dots.mpr (Or.inr trivial)
      · exact shallow_dots.mpr ((shallow_dots.mp hs).imp_right fun hs => ih hs hds)
    have hc : ∀ cs, NotDots c cs := fun _ => ⟨fun h => hnil h.1, hdot, hdots⟩
    have hs := (shallow_name hnil (hc _)).mp hs
    rcases hone with rfl | ⟨ds, rfl, hds⟩
    · exact (shallow_name hnil (hc _)).mpr (hs.imp_right fun ⟨e, he, _⟩ => ⟨e, he, trivial⟩)
    · exact (shallow_name hnil (hc _)).mpr (hs.imp_right fun ⟨e, he, hs⟩ => ⟨e, he, ih hs hds⟩)

theorem Part.subset (h : Part cs' cs) (hc : c ∈ cs') : c ∈ cs ∨ c = [] := by
  rcases h with ⟨-, hpre⟩ | ⟨ds, rfl, hpre, -⟩
  · exact Or.inl (hpre.mem hc)
  · rcases List.mem_append.mp hc with hc | hc
    · exact Or.inl (hpre.mem hc)
    · exact Or.inr (List.mem_singleton.mp hc)

/-- Every part is walked right, by induction on the components. -/
theorem Image.Chained.walksRight_iff (hp : g.Chained p) (h : DirTree s g) (hcs : ∀ c ∈ cs, NulFree c) :
    (∀ mem cs', Part cs' cs → WalksRight mem s p cs') ↔ s.Shallow p.id cs := by
  constructor
  · intro hright
    induction cs generalizing p with
    | nil => trivial
    | cons c cs ih =>
      obtain ⟨n, hn⟩ := hp.node' h
      have hrest : ∀ d ∈ cs, NulFree d := fun d hd => hcs d (List.mem_cons_of_mem _ hd)
      by_cases hnil : c = []
      · subst hnil
        refine shallow_nil.mpr ?_
        by_contra hne
        refine h.not_right_empty hn (hright _ _ (Or.inr ⟨[[]], rfl, ⟨cs, rfl⟩, fun heq => hne (List.cons.inj heq).2.symm⟩))
      by_cases hdot : c = lit "."
      · subst hdot
        exact shallow_dot.mpr (ih hp hrest fun mem cs' hpart => walksRight_dot.mp (hright mem _ hpart.cons))
      by_cases hdots : c = lit ".."
      · subst hdots
        cases hprev : p.prev with
        | none =>
          cases p with
          | root => exact shallow_dots.mpr (Or.inl rfl)
          | node id prev => cases hprev
        | some q =>
          obtain ⟨hq, hne, hparent⟩ := hp.up h hprev
          refine shallow_dots.mpr (Or.inr ?_)
          rw [hparent]
          exact ih hq hrest fun mem cs' hpart => (walksRight_dots hp h hprev).mp (hright mem _ hpart.cons)
      have hc : ∀ cs, NotDots c cs := fun _ => ⟨fun h => hnil h.1, hdot, hdots⟩
      have hname := hcs c List.mem_cons_self
      refine (shallow_name hnil (hc _)).mpr (or_iff_not_imp_left.mpr fun hstate => ?_)
      obtain ⟨es, rest, hd⟩ := h.dir_of_state (not_not.mp hstate)
      obtain ⟨e, hfind⟩ := h.found_of_right hd hname hnil (hc _) fun mem =>
        hright mem _ (Or.inl ⟨List.cons_ne_nil _ _, ⟨cs, rfl⟩⟩)
      have hsub : g.Chained (.node e.2 p) := .node hp hd (List.mem_append_left _ (List.mem_of_find?_eq_some hfind))
      refine ⟨e, by rw [h.take_listing hd]; exact hfind, ih hsub hrest fun mem cs' hpart => ?_⟩
      exact (walksRight_found h hd hname hnil (hc _) hfind).mp (hright mem _ hpart.cons)
  · exact fun hs mem cs' hpart => (hs.part hpart).walksRight h hp fun c hc =>
      (hpart.subset hc).elim (hcs c) fun heq => heq ▸ .nil

end

/-! ## `get_path` -/

section
variable {mem : Zone → Str → Nat → Byte} {s : Store} {pwd : PathT} {path pre : Str} {cs : List Str}

theorem resolvesRight_iff : ResolvesRight mem s pwd path ↔ WalksRight mem s (startNode pwd path) (startPath path) := by
  unfold ResolvesRight WalksRight Store.refResolve
  rw [resolve_eq, Option.map_map]
  rfl

theorem walksRight_end {p : PathT} : WalksRight mem s p [[]] := rfl

theorem mem_joined {c : Str} {b : Byte} (hc : c ∈ cs) (hb : b ∈ c) : b ∈ joined cs := by
  induction cs with
  | nil => cases hc
  | cons d ds ih =>
    by_cases hds : ds = []
    · subst hds
      rw [joined_single]
      exact List.mem_singleton.mp hc ▸ hb
    · rw [joined_cons hds]
      rcases List.mem_cons.mp hc with rfl | hc
      · exact List.mem_append_left _ hb
      · exact List.mem_append_right _ (List.mem_cons_of_mem _ (ih hc))

/-- What is left of a path without its leading slash. -/
def bare (path : Str) : Str := if path.head? = some slash then path.tail else path

theorem InitialPart.part (h : InitialPart pre path) (hne : pre ≠ []) :
    startNode pwd pre = startNode pwd path ∧ Part (startPath pre) (startPath path) := by
  obtain ⟨rest, rfl, hrest⟩ := h
  have hhead : (pre ++ rest).head? = pre.head? := List.head?_append_of_ne_nil _ hne
  refine ⟨by unfold startNode; rw [hhead], ?_⟩
  have hbare : bare (pre ++ rest) = bare pre ++ rest := by
    unfold bare
    rw [hhead]
    split
    · exact List.tail_append_of_ne_nil hne
    · rfl
  show Part (components (bare pre)) (components (bare (pre ++ rest)))
  rw [hbare]
  rcases hrest with rfl | hrest | hlast
  · rw [List.append_nil]
    exact Or.inl ⟨components_ne_nil _, List.prefix_rfl⟩
  · obtain ⟨r, rfl⟩ : ∃ r, rest = slash :: r := by
      cases rest with
      | nil => cases hrest
      | cons c r => exact ⟨r, by rw [Option.some.inj hrest]⟩
    rw [components_append]
    exact Or.inl ⟨components_ne_nil _, List.prefix_append _ _⟩
  · have hend : bare pre = [] ∨ (bare pre).getLast? = some slash := by
      unfold bare
      split
      · rw [List.getLast?_tail]
        cases pre with
        | nil => exact absurd rfl hne
        | cons c t =>
          cases t with
          | nil => exact Or.inl rfl
          | cons d t => exact Or.inr (by simpa using hlast)
      · exact Or.inr hlast
    rcases hend with hnil | hlast
    · rw [hnil]
      exact Or.inr ⟨[], rfl, List.nil_prefix, (components_ne_nil _).symm⟩
    · obtain ⟨u, hu⟩ := List.getLast?_eq_some_iff.mp hlast
      have hall : u ++ [slash] ++ rest = u ++ slash :: rest := by rw [List.append_assoc]; rfl
      rw [hu, hall, components_append, components_append]
      refine Or.inr ⟨components u, rfl, List.prefix_append _ _, fun heq => ?_⟩
      exact components_ne_nil rest (List.self_eq_append_right.mp heq)

/-- A part of the components is that of an initial part of the path. -/
theorem exists_initial {b : Str} (h : Part cs (components b)) : cs = [[]] ∨ ∃ x r, b = x ++ r ∧ components x = cs ∧
    (r = [] ∨ r.head? = some slash ∨ x.getLast? = some slash) := by
  have hsplit : ∀ as bs, as ++ bs = components b → as ≠ [] → bs ≠ [] → components (joined as) = as ∧
      b = joined as ++ slash :: joined bs := by
    intro as bs heq has hbs
    have hslash : ∀ c ∈ as ++ bs, slash ∉ c := fun c hc => noSlash_of_mem (heq ▸ hc)
    have hleft := components_joined (fun c hc => hslash c (List.mem_append_left _ hc)) has
    have hright := components_joined (fun c hc => hslash c (List.mem_append_right _ hc)) hbs
    refine ⟨hleft, ?_⟩
    rw [← joined_components b, ← heq, ← joined_components (joined as ++ slash :: joined bs), components_append, hleft, hright]
  rcases h with ⟨hne, ds, heq⟩ | ⟨ds, rfl, ⟨es, heq⟩, hne⟩
  · right
    by_cases hds : ds = []
    · refine ⟨b, [], (List.append_nil b).symm, ?_, Or.inl rfl⟩
      rw [← heq, hds, List.append_nil]
    · obtain ⟨hcs, hb⟩ := hsplit cs ds heq hne hds
      exact ⟨joined cs, _, hb, hcs, Or.inr (Or.inl rfl)⟩
  · by_cases hds : ds = []
    · exact Or.inl (by rw [hds, List.nil_append])
    · right
      have hes : es ≠ [] := fun hes => hne (by rw [← heq, hes, List.append_nil])
      obtain ⟨hcs, hb⟩ := hsplit ds es heq hds hes
      refine ⟨joined ds ++ [slash], joined es, by rw [hb, List.append_assoc]; rfl, ?_, Or.inr (Or.inr List.getLast?_concat)⟩
      rw [components_append, hcs]
      rfl

theorem Part.initial (h : Part cs (startPath path)) : cs = [[]] ∨
    ∃ pre, InitialPart pre path ∧ startNode pwd pre = startNode pwd path ∧ startPath pre = cs := by
  rcases exists_initial h with hend | ⟨x, r, hb, hcs, hr⟩
  · exact Or.inl hend
  right
  by_cases hslash : path.head? = some slash
  · obtain ⟨t, rfl⟩ : ∃ t, path = slash :: t := by
      cases path with
      | nil => cases hslash
      | cons c t => exact ⟨t, by rw [Option.some.inj hslash]⟩
    have hb : t = x ++ r := hb
    refine ⟨slash :: x, ⟨r, by rw [hb]; rfl, hr.imp_right fun hr => hr.imp_right fun hlast => ?_⟩, rfl, hcs⟩
    rw [List.getLast?_cons, hlast]
    rfl
  · rw [if_neg hslash] at hb
    have hx : x.head? ≠ some slash := fun hx => hslash (by rw [hb, List.head?_append, hx]; rfl)
    refine ⟨x, ⟨r, hb, hr⟩, ?_, ?_⟩
    · unfold startNode
      rw [if_neg hx, if_neg hslash]
    · unfold startPath
      rw [if_neg hx]
      exact hcs

theorem right_iff {g : Image} (h : DirTree s g) (hl : g.Leads pwd) (hpath : NulFree path) :
    (∀ mem pre, InitialPart pre path → ResolvesRight mem s pwd pre) ↔
      s.Shallow (startNode pwd path).id (startPath path) := by
  have hchained : g.Chained (startNode pwd path) := by
    unfold startNode
    split
    · exact .root
    · exact hl.chained
  have hcs : ∀ c ∈ startPath path, NulFree c := fun c hc b hb => by
    have hbare : NulFree (bare path) := by
      unfold bare
      split
      · exact fun b hb => hpath b (List.mem_of_mem_tail hb)
      · exact hpath
    have hmem : b ∈ joined (components (bare path)) := mem_joined hc hb
    rw [joined_components] at hmem
    exact hbare b hmem
  rw [← hchained.walksRight_iff h hcs]
  constructor
  · intro hright mem cs hpart
    rcases hpart.initial with rfl | ⟨pre, hpre, hnode, rfl⟩
    · exact walksRight_end
    · rw [← hnode]
      exact resolvesRight_iff.mp (hright mem pre hpre)
  · intro hright mem pre hpre
    refine resolvesRight_iff.mpr ?_
    by_cases hne : pre = []
    · subst hne
      exact walksRight_end
    · obtain ⟨hnode, hpart⟩ := hpre.part hne
      rw [hnode]
      exact hright mem _ hpart

end

/-- A path and each of its initial parts resolve to what they stand for, whatever lies above the dentries, exactly when
    the names are those of first entries and no component but the last one is empty. -/
theorem get_path_right_iff (s : Store) (g : Image) (pwd : PathT) (path : Str) (h : DirTree s g) (hl : g.Leads pwd)
    (hpath : NulFree path) : (∀ mem pre, InitialPart pre path → ResolvesRight mem s pwd pre) ↔
      s.Shallow (startNode pwd path).id (startPath path) := right_iff h hl hpath

/-- A file in a directory is found. -/
theorem get_path_right_iff_sample : sampleDisk.refResolve .root (lit "d/x") = some 9 ∧
    ResolvesRight (fun _ _ _ => 0) sampleDisk .root (lit "d/x") := by
  obtain ⟨g, h, -⟩ := sampleDisk_reached.inv fun _ _ _ h => h
  have hsub : sampleDisk.Shallow 8 [lit "x"] :=
    (shallow_name (by decide) ⟨by decide, by decide, by decide⟩).mpr (Or.inr ⟨(lit "x", 9), by decide +kernel, trivial⟩)
  have hshallow : sampleDisk.Shallow 4 [lit "d", lit "x"] :=
    (shallow_name (by decide) ⟨by decide, by decide, by decide⟩).mpr (Or.inr ⟨(lit "d", 8), by decide +kernel, hsub⟩)
  have hright := (get_path_right_iff sampleDisk g .root (lit "d/x") h.toDirTree h.leads_root (by decide)).mpr hshallow
  exact ⟨by decide +kernel, hright _ _ ⟨[], rfl, Or.inl rfl⟩⟩

/-- The fifth entry of the root directory is not found. -/
theorem get_path_fifth : ¬∀ mem s g pwd path, Inv s g → g.Leads pwd → NulFree path → ResolvesRight mem s pwd path := by
  intro hall
  have hdec : (serveAll [lit "touch a", lit "touch b", lit "touch c", lit "touch d", lit "touch e"] .root emptyDisk).map
      (fun r => decide ((resolve (fun _ _ _ => 0) r.2 .root (lit "e")).map (fun o => o.1.map PathT.id) = some none ∧
        r.2.refResolve .root (lit "e") ≠ none)) = some true := by decide +kernel
  obtain ⟨⟨pwd, s⟩, hserve, hnone, href⟩ := exists_of_decide hdec
  obtain ⟨g, h, -⟩ := (serveAll_reached (by decide) (by decide) hserve).inv fun _ _ _ h => h
  have hright := hall (fun _ _ _ => 0) s g .root (lit "e") h h.leads_root (by decide)
  exact href (Option.some.inj (hright.symm.trans hnone))

end MiniFs
