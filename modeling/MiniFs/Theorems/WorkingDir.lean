import MiniFs.Theorems.Runs

/-! # The working directory

`cd` keeps the chain of ids that `get_path` built, and the other commands do not look at it. It stays a chain of
directories as long as no command removes a directory on it. -/

namespace MiniFs
open Interact Memory

/-- The nodes of the chain, the root last. -/
def PathT.nodes : PathT → List PathT
  | .root => [.root]
  | .node id prev => .node id prev :: prev.nodes

/-- A slot in the chain of directory `d` refers to `id`. -/
def Store.Lists (s : Store) (d id : Int) : Prop := ∃ x i, Found s.Ref (.node, d) x ∧ x.lister = d ∧ s.Ref x i (.node, id)

/-- Every node of the chain is a directory, the last one is the root, and the others are listed by the next one. -/
structure Store.Live (s : Store) (pwd : PathT) : Prop where
  state : ∀ p ∈ pwd.nodes, s.state p.id = some dOccupied
  root : (pwd.nodes.getLast?.map PathT.id) = some 4
  listed : ∀ id prev, .node id prev ∈ pwd.nodes → s.Lists prev.id id

/-- A request that does not remove a node of the working directory. -/
def Stays (s : Store) (pwd : PathT) : List Str → Prop
  | [t, a] => t = lit "rm" ∨ t = lit "rmdir" → ∀ p, (s.lookup pwd a).1 = some p → ∀ q ∈ pwd.nodes, q.id ≠ p.id
  | [t, a, _] => t = lit "write" → ∀ p, (s.lookup pwd a).1 = some p → s.state p.id = some iOccupied →
      ∀ p', (s.lookup pwd (s.lookup pwd a).2).1 = some p' → ∀ q ∈ pwd.nodes, q.id ≠ p'.id
  | _ => True

/-! ## The chain in the image -/

structure Image.Leads (g : Image) (pwd : PathT) : Prop where
  dir : ∀ p ∈ pwd.nodes, ∃ es rest, g.node p.id = some (.dir es rest)
  entry : ∀ id prev, .node id prev ∈ pwd.nodes → ∃ nd e, g.node prev.id = some nd ∧ e ∈ nd.entries ∧ e.2 = id

section
variable {s s' : Store} {g g' : Image} {pwd p q curr : PathT} {path : Str} {id d : Int} {n : Node} {zs : List Int}

theorem PathT.self_mem (p : PathT) : p ∈ p.nodes := by
  cases p <;> exact List.mem_cons_self

theorem PathT.prev_mem (h : .node id q ∈ p.nodes) : q ∈ p.nodes := by
  induction p with
  | root => simp [PathT.nodes] at h
  | node i prev ih =>
    rcases List.mem_cons.mp h with heq | h
    · cases heq
      exact List.mem_cons_of_mem _ q.self_mem
    · exact List.mem_cons_of_mem _ (ih h)

theorem PathT.last_nodes (p : PathT) : p.nodes.getLast? = some .root := by
  induction p with
  | root => rfl
  | node id prev ih =>
    unfold PathT.nodes
    rw [List.getLast?_cons, ih]
    rfl

theorem Image.Leads.prev (h : g.Leads (.node id q)) : g.Leads q :=
  ⟨fun p hp => h.dir p (List.mem_cons_of_mem _ hp), fun i prev hp => h.entry i prev (List.mem_cons_of_mem _ hp)⟩

/-! ## `cd` -/

/-- The nodes above `p` lead to it, and to `p` itself if it is a directory. -/
structure Image.Points (s : Store) (g : Image) (p : PathT) : Prop where
  self : s.state p.id = some dOccupied → g.Leads p
  prev : ∀ q, p.prev = some q → g.Leads q

theorem Image.Leads.points (h : g.Leads p) : g.Points s p :=
  ⟨fun _ => h, fun q hq => by
    cases p with
    | root => cases hq
    | node id prev =>
      cases hq
      exact h.prev⟩

/-- A component that is found is an entry, unless it is a free slot. -/
theorem Image.Leads.sub (h : Inv s g) (hl : g.Leads curr) (hcurr : s.state curr.id = some dOccupied) {name : Str}
    (hname : NulFree name) (hsub : s.lookupSub curr.id name = some id) : g.Points s (.node id curr) := by
  refine ⟨fun hid => ?_, fun q hq => ?_⟩
  · obtain ⟨es, rest, hd⟩ := h.dir_of_state hcurr
    rw [lookupSub_eq (Chain.entries (h.rep _ _ hd)) hname] at hsub
    unfold lookupEntries at hsub
    obtain ⟨es', rest', hnode⟩ := h.dir_of_state hid
    split at hsub
    · rename_i e he
      cases hsub
      refine ⟨fun p hp => ?_, fun i prev hp => ?_⟩
      · rcases List.mem_cons.mp hp with rfl | hp
        · exact ⟨es', rest', hnode⟩
        · exact hl.dir p hp
      · rcases List.mem_cons.mp hp with heq | hp
        · cases heq
          exact ⟨_, e, hd, List.mem_append_left _ (List.mem_of_find?_eq_some he), rfl⟩
        · exact hl.entry i prev hp
    · split at hsub
      · cases hsub
        have h4 : (4 : Int) ≤ 0 := h.le hnode
        omega
      · cases hsub
  · cases hq
    exact hl

theorem Image.Points.walk (h : Inv s g) (hp : g.Points s curr) (hpath : NulFree path) {fuel : Nat}
    (hw : (s.walk fuel curr path).1 = some p) : g.Points s p := by
  induction fuel generalizing curr path with
  | zero => cases hw
  | succ fuel ih =>
    unfold Store.walk at hw
    split at hw
    · cases hw
      exact hp
    split at hw
    · exact (hp.prev p hw).points
    split at hw
    · exact ih hp (hpath.drop 2) hw
    split at hw
    · cases hprev : curr.prev with
      | none => rw [hprev] at hw; cases hw
      | some prev =>
        rw [hprev] at hw
        exact ih (hp.prev prev hprev).points (hpath.drop 3) hw
    split at hw
    · cases hw
    rename_i hstate
    have hdir := not_not.mp hstate
    dsimp only at hw
    cases hsub : s.lookupSub curr.id (path.takeWhile (· ≠ slash)) with
    | none => rw [hsub] at hw; cases hw
    | some sub =>
      rw [hsub] at hw
      have hpoints := (hp.self hdir).sub h hdir (hpath.takeWhile _) hsub
      dsimp only at hw
      split at hw
      · exact ih hpoints (hpath.drop _) hw
      · cases hw
        exact hpoints

theorem Inv.leads_root (h : Inv s g) : g.Leads .root := by
  obtain ⟨n, hn, hdir⟩ := h.root
  obtain ⟨es, rest, rfl⟩ := Node.eq_dir hdir
  refine ⟨fun p hp => ?_, fun i prev hp => ?_⟩
  · rw [List.mem_singleton.mp hp]
    exact ⟨es, rest, hn⟩
  · cases List.mem_singleton.mp hp

theorem Image.Leads.cd (h : Inv s g) (hl : g.Leads pwd) (hpath : NulFree path) (hp : (s.lookup pwd path).1 = some p)
    (hdir : s.state p.id = some dOccupied) : g.Leads p := by
  cases path with
  | nil =>
    cases hp
    exact hl
  | cons c rest =>
    unfold Store.lookup at hp
    dsimp only at hp
    split at hp
    · exact (h.leads_root.points.walk h (fun b hb => hpath b (List.mem_cons_of_mem _ hb)) hp).self hdir
    · exact (hl.points.walk h hpath hp).self hdir

/-! ## The other commands -/

/-- A directory keeps the entries for the zones that are not freed. -/
theorem Change.keeps_dir {r : Rules} (hinv : Inv s g) (hinv' : Inv s' g') (hc : Change r s g s' g') :
    ∃ zs, (zs = [] ∨ ∃ id, r.erase g id zs) ∧ ∀ i es rest, g.node i = some (.dir es rest) → i ∉ zs →
      ∃ es' rest', g'.node i = some (.dir es' rest') ∧ ∀ e ∈ entriesOf es rest, e.2 ∉ zs → e ∈ entriesOf es' rest' := by
  cases hc with
  | @insert d e n nd nd' new h _ _ =>
    refine ⟨[], Or.inl rfl, fun i es rest hi _ => ?_⟩
    have hnode := h.node i
    by_cases hid : i = d
    · subst hid
      have hentries := h.entries
      rw [h.dir] at hi
      cases hi
      cases nd' with
      | file kids => simp [Node.entries] at hentries
      | dir es' rest' =>
        rw [if_pos rfl] at hnode
        refine ⟨es', rest', hnode, fun e' he' _ => ?_⟩
        have hmem : e' ∈ (Node.dir es' rest').entries := hentries ▸ List.mem_append_left _ he'
        exact hmem
    · rw [if_neg hid] at hnode
      have hne : i ≠ e.2 := by
        rintro rfl
        rw [hinv.node_eq_none h.free] at hi
        cases hi
      rw [if_neg hne, hi] at hnode
      exact ⟨es, rest, hnode, fun _ he' _ => he'⟩
  | @erase d e nd nd' zs h ok =>
    refine ⟨zs, Or.inr ⟨e.2, ok⟩, fun i es rest hi hz => ?_⟩
    have hnode := h.node i
    rw [if_neg hz] at hnode
    by_cases hid : i = d
    · subst hid
      rw [if_pos rfl] at hnode
      have hstate := hinv'.state i nd' hnode
      rw [h.state, if_neg hz, hinv.state i _ hi] at hstate
      obtain ⟨es', rest', rfl⟩ := Node.eq_dir (Option.some.inj hstate).symm
      have hentries := h.entries
      rw [Option.some.inj (h.dir.symm.trans hi)] at hentries
      refine ⟨es', rest', hnode, fun e' he' hne => ?_⟩
      rcases List.mem_cons.mp (hentries.mem_iff.mp (show e' ∈ (Node.dir es rest).entries from he')) with rfl | he'
      · exact absurd h.mem hne
      · exact he'
    · rw [if_neg hid, hi] at hnode
      exact ⟨es, rest, hnode, fun _ he' _ => he'⟩
  | @extend id kids kids' new h =>
    refine ⟨[], Or.inl rfl, fun i es rest hi _ => ?_⟩
    have hne : i ≠ id := by
      rintro rfl
      rw [h.file] at hi
      cases hi
    have hnode := h.node i
    rw [if_neg hne, hi] at hnode
    exact ⟨es, rest, hnode, fun _ he' _ => he'⟩

/-- The rules that keep the nodes of the working directory. -/
def Rules.stays (pwd : PathT) : Rules := ⟨fun _ _ => True, fun _ _ zs => ∀ q ∈ pwd.nodes, q.id ∉ zs⟩

theorem Image.Leads.step (hl : g.Leads pwd) (hinv : Inv s g) (hinv' : Inv s' g') (hc : Change (.stays pwd) s g s' g') :
    g'.Leads pwd := by
  obtain ⟨zs, hzs, hkeep⟩ := hc.keeps_dir hinv hinv'
  have hnot : ∀ q ∈ pwd.nodes, q.id ∉ zs := by
    rcases hzs with rfl | ⟨_, hok⟩
    · exact fun _ _ => List.not_mem_nil
    · exact hok
  refine ⟨fun p hp => ?_, fun i prev hp => ?_⟩
  · obtain ⟨es, rest, hd⟩ := hl.dir p hp
    obtain ⟨es', rest', hd', -⟩ := hkeep _ es rest hd (hnot p hp)
    exact ⟨es', rest', hd'⟩
  · have hprev := PathT.prev_mem hp
    obtain ⟨es, rest, hd⟩ := hl.dir prev hprev
    obtain ⟨nd, e, hnd, he, rfl⟩ := hl.entry i prev hp
    rw [hd] at hnd
    cases hnd
    obtain ⟨es', rest', hd', hin⟩ := hkeep _ es rest hd (hnot prev hprev)
    exact ⟨_, e, hd', hin e he (hnot _ hp), rfl⟩

/-- No node is on the chain whose directory is not. -/
theorem Image.Leads.avoids (hl : g.Leads pwd) (h : Inv s g) (hn : g.node id = some n) (hid : ∀ q ∈ pwd.nodes, q.id ≠ id)
    (hw : Within id n zs) : ∀ q ∈ pwd.nodes, q.id ∉ zs := by
  intro q hq hin
  obtain ⟨es, rest, hd⟩ := hl.dir q hq
  rcases hw.sub _ hin with heq | hz | ⟨e, he, heq⟩
  · exact hid q hq heq
  · exact h.ne_own hd hn hz rfl
  · cases q with
    | root => exact (h.entry id n e hn he).ne heq
    | node i prev =>
      obtain ⟨nd, e', hnd, he', heq'⟩ := hl.entry i prev hq
      have hparent := (h.entry _ nd e' hnd he').parent
      have hne := hid prev (PathT.prev_mem hq)
      rw [heq', show i = e.2 from heq.symm, (h.entry id n e hn he).parent] at hparent
      exact hne hparent.symm

theorem Stays.follows {toks : List Str} (h : Inv s g) (hl : g.Leads pwd) (hsafe : Safe s pwd toks)
    (hstays : Stays s pwd toks) :
    Follows (.stays pwd) s g pwd toks where
  insert := fun _ _ _ _ _ _ _ => trivial
  rm := by
    rintro a p n rfl hp hn
    have hok := hsafe.1 rfl p hp
    exact hl.avoids h hn (hstays (Or.inl rfl) p hp) (h.rmFile_frees (P := .kept) (h.le hn) hok hn).1
  rmdir := by
    rintro a p n rfl hp hn
    have hok := hsafe.2 rfl p hp
    exact hl.avoids h hn (hstays (Or.inr rfl) p hp) (rmDir_frees (P := .kept) h (h.le hn) hok hn).1
  rewrite := by
    rintro a b p rfl hp hfile
    refine ⟨fun q n hq hn => ?_, fun _ _ _ _ _ _ _ _ => trivial⟩
    have hok := ((hsafe rfl).old p hp hfile).2 q hq
    exact hl.avoids h hn (hstays rfl p hp hfile q hq) (h.rmFile_frees (P := .kept) (h.le hn) hok hn).1

/-! ## On the disk -/

/-- The entries of a chain are listed. -/
theorem Chain.lists {L : Layout} {x : Place} {z : Int} {es : List Entry} {rest : List Seg} (h : Chain s.zones L z es rest)
    (hx : Found s.Ref (.node, d) x) (hlister : x.lister = d) (hrefs : ∀ j w, DirRef s.zones d L z j w → s.Ref x j w)
    {e : Entry} (he : e ∈ entriesOf es rest) : s.Lists d e.2 := by
  induction rest generalizing L x z es with
  | nil =>
    have he : e ∈ es := by simpa [entriesOf] using he
    obtain ⟨i, hi, rfl⟩ := List.mem_iff_getElem.mp he
    have hle := h.1.le
    obtain ⟨hsub, hne, -⟩ := h.1.get hi
    exact ⟨x, i, hx, hlister, hrefs i _ (Or.inl ⟨by omega, by rw [hsub]; exact hne, by rw [hsub]⟩)⟩
  | cons seg rest ih =>
    obtain ⟨hes, hfull, hnext, h4, hrest⟩ := h
    rcases List.mem_append.mp he with he | he
    · obtain ⟨i, hi, rfl⟩ := List.mem_iff_getElem.mp he
      obtain ⟨hsub, hne, -⟩ := hes.get hi
      exact ⟨x, i, hx, hlister, hrefs i _ (Or.inl ⟨by omega, by rw [hsub]; exact hne, by rw [hsub]⟩)⟩
    · have hstep : s.Ref x L.subs (.dirZone d, seg.1) := hrefs _ _ (Or.inr ⟨by rw [hnext]; omega, rfl, by rw [hnext]⟩)
      refine ih (x := (.dirZone d, seg.1)) hrest (hx.step hstep) rfl (fun j w hr => ?_) he
      rcases hr with ⟨hj, hne, rfl⟩ | ⟨hne, rfl, rfl⟩
      · exact .subCont hj hne
      · exact .nextCont hne

theorem Image.Leads.live (hl : g.Leads pwd) (h : Inv s g) : s.Live pwd where
  state := fun p hp => by
    obtain ⟨es, rest, hd⟩ := hl.dir p hp
    exact h.state _ _ hd
  root := by rw [PathT.last_nodes]; rfl
  listed := fun i prev hp => by
    obtain ⟨es, rest, hd⟩ := hl.dir prev (PathT.prev_mem hp)
    obtain ⟨nd, e, hnd, he, rfl⟩ := hl.entry i prev hp
    rw [hd] at hnd
    cases hnd
    have hstate := h.state _ _ hd
    refine Chain.lists (h.rep _ _ hd) .refl rfl (fun j w hr => ?_) he
    rcases hr with ⟨hj, hne, rfl⟩ | ⟨hne, rfl, rfl⟩
    · exact .sub hstate hj hne
    · exact .next hstate hne

end

/-- In every run of safe requests that do not remove a node of the working directory it stays live. -/
theorem live_of_safe_run (s : Store) (pwd : PathT)
    (h : Reached .kept (fun s pwd toks => Safe s pwd toks ∧ Stays s pwd toks) s pwd) : s.Live pwd := by
  obtain ⟨g, hinv, hl, -⟩ := h.keeps (r := .stays) (J := fun pwd _ g => g.Leads pwd) (fun _ _ _ h => h.1)
    (fun _ _ _ _ hinv hl _ hok => hok.2.follows hinv hl hok.1) (fun _ h => h.inv.leads_root)
    (fun _ _ _ _ _ hinv hl hc hinv' => hl.step hinv hinv' hc) fun _ _ _ _ _ hinv hl hpath hp hdir => hl.cd hinv hpath hp hdir
  exact hl.live hinv

theorem live_of_safe_run_cd : ∃ (s : Store) (pwd : PathT), pwd ≠ .root ∧ s.Live pwd := by
  have hdec : ((serveAll [lit "mkdir d", lit "cd d"] .root emptyDisk).map fun r => r.1.id) = some 5 := by decide +kernel
  obtain ⟨⟨pwd, s⟩, heq, hid⟩ := Option.map_eq_some_iff.mp hdec
  refine ⟨s, pwd, fun h => ?_, live_of_safe_run s pwd (.serveAll (.format emptyDisk_formatted) (by decide) ?_ heq)⟩
  · rw [h] at hid
    cases hid
  · intro req hreq s pwd
    rcases List.mem_pair.mp hreq with rfl | rfl <;> exact ⟨⟨nofun, nofun⟩, fun h => absurd h (by decide)⟩

/-- `rmdir .` removes the working directory. -/
theorem rmdir_here_live : ¬∀ s pwd, Reached .all AnyRequest s pwd → s.Live pwd := by
  intro hall
  have hrun : ∃ pwd s, serveAll [lit "mkdir d", lit "cd d", lit "rmdir ."] .root emptyDisk = some (pwd, s) ∧
      s.state pwd.id ≠ some dOccupied := by
    have hdec : ((serveAll [lit "mkdir d", lit "cd d", lit "rmdir ."] .root emptyDisk).map fun r => r.2.state r.1.id) =
        some (some unoccupied) := by decide +kernel
    obtain ⟨⟨pwd, s⟩, heq, hs⟩ := Option.map_eq_some_iff.mp hdec
    refine ⟨pwd, s, heq, ?_⟩
    rw [show s.state pwd.id = some unoccupied from hs]
    decide
  obtain ⟨pwd, s, heq, hne⟩ := hrun
  exact hne ((hall s pwd (Reached.serveAll (.format emptyDisk_formatted) (by decide)
    (fun _ _ _ _ => trivial) heq)).state pwd pwd.self_mem)

end MiniFs
