import MiniFs.Theorems.Names

/-! # Requests that fail

A command that returns 1 does so before it changes anything, except for `wrt`: its append comes after the old file is
gone and the new one is made. It does not fail where the path leads to what was made. -/

namespace MiniFs
open Interact Memory

/-- If the status of the answer is 4, nothing has changed. -/
def Unchanged (s : Store) (pwd : PathT) (o : Option PathT) (t : Store × List Msg) : Prop :=
  t.2.getLast? = some (packet (lit "4")) → o = some pwd ∧ t.1 = s

/-! ## Commands -/

section
variable {P : Policy} {s : Store} {pwd : PathT} {path str : Str} {log : List Msg}

theorem getFreeIdFrom_neg {map map' : Bitmap} {b : Byte} {fuel id : Nat} {r : Int}
    (h : getFreeIdFrom map b fuel id = some (r, map')) (hr : r < 0) : map' = map := by
  induction fuel generalizing id with
  | zero =>
    cases h
    rfl
  | succ fuel ih =>
    obtain ⟨c, -, hc⟩ := Option.bind_eq_some_iff.mp h
    split at hc
    · obtain ⟨m, -, hm⟩ := Option.bind_eq_some_iff.mp hc
      cases hm
      omega
    · exact ih hc

/-- A `get_free_id` that fails takes nothing. -/
theorem getFreeId_neg {b : Byte} : wlp (fsSem P) (Fs.getFreeId b) (fun id t => id < 0 → t.1 = s) (s, log) := by
  intro id t hr hid
  cases hr with
  | op hx hr =>
    cases hr
    obtain ⟨o', ⟨ho', -⟩, heq⟩ := hx
    obtain ⟨⟨a, s'⟩, rfl, hm⟩ := Option.map_eq_some_iff.mp heq.symm
    obtain ⟨rfl, rfl⟩ := Prod.mk.inj hm
    obtain ⟨⟨a', map'⟩, hget, heq⟩ := Option.map_eq_some_iff.mp ho'.symm
    obtain ⟨rfl, rfl⟩ := Prod.mk.inj heq
    show (⟨map', s.zones⟩ : Store) = s
    rw [getFreeIdFrom_neg hget hid]

/-- Once a command is bound to return 0 it does not fail. -/
theorem wlp_returns {α β : Type} {p : FsM α} {f : α → FsM β} {Q : β → Store × List Msg → Prop} {t : Store × List Msg}
    (hf : ∀ a u, wlp (fsSem P) (f a) Q u) : wlp (fsSem P) (p >>= f) Q t :=
  wlp_seq (R := fun _ _ => True) (fun _ _ _ => trivial) fun a u _ => hf a u

theorem mkNode_fails {state : Byte} {make : Int → UInt64 → Zone} :
    wlp (fsSem P) (mkNode state make pwd path) (fun n t => n ≠ 0 → t.1 = s) (s, log) := by
  unfold mkNode
  refine wlp_seq (readOnly_getPath pwd path).wlp ?_
  rintro ⟨_ | p, cut⟩ ⟨s₁, l⟩ rfl
  · refine wlp_seq (readOnly_orFault _).wlp ?_
    rintro ⟨name, rest⟩ ⟨s₂, l⟩ rfl
    refine wlp_seq (readOnly_getPath pwd rest).wlp ?_
    rintro ⟨_ | p, cut'⟩ ⟨s₃, l⟩ rfl
    · exact wlp_ret fun _ => rfl
    refine wlp_seq (readOnly_getState p.id).wlp ?_
    rintro b ⟨s₄, l⟩ rfl
    split
    · exact wlp_ret fun _ => rfl
    refine wlp_seq getFreeId_neg ?_
    rintro id ⟨s₅, l⟩ hid
    split
    · rename_i hneg
      exact wlp_ret fun _ => hid hneg
    · exact wlp_returns fun _ _ => wlp_returns fun _ _ => wlp_returns fun _ _ => wlp_ret fun h => absurd rfl h
  · exact wlp_ret fun _ => rfl

theorem rmNode_fails {rm : Int → FsM Unit} :
    wlp (fsSem P) (rmNode rm pwd path) (fun r t => r.1 ≠ 0 → t.1 = s) (s, log) := by
  unfold rmNode
  refine wlp_seq (readOnly_getPath pwd path).wlp ?_
  rintro ⟨_ | p, cut⟩ ⟨s₁, l⟩ rfl
  · exact wlp_ret fun _ => rfl
  refine wlp_seq (readOnly_readZone p.id).wlp ?_
  rintro (_ | zone) ⟨s₂, l⟩ rfl
  · exact wlp_ret fun _ => rfl
  · exact wlp_returns fun _ _ => wlp_returns fun _ _ => wlp_ret fun h => absurd rfl h

theorem append_fails : wlp (fsSem P) (append pwd path str) (fun n t => n ≠ 0 → t.1 = s) (s, log) := by
  unfold append
  refine wlp_seq (readOnly_getPath pwd path).wlp ?_
  rintro ⟨_ | p, cut⟩ ⟨s₁, l⟩ rfl
  · exact wlp_ret fun _ => rfl
  refine wlp_seq (readOnly_getState p.id).wlp ?_
  rintro b ⟨s₂, l⟩ rfl
  dsimp only
  split
  · exact wlp_ret fun _ => rfl
  refine wlp_seq (readOnly_readZone p.id).wlp ?_
  rintro (_ | inode) ⟨s₃, l⟩ rfl
  · exact wlp_ret fun _ => rfl
  dsimp only
  split
  · exact wlp_returns fun _ _ => wlp_returns fun _ _ => wlp_ret fun h => absurd rfl h
  · exact wlp_ret fun h => absurd rfl h

theorem change_fails : wlp (fsSem P) (change pwd path) (fun c t => c.1 ≠ 0 → c.2 = pwd ∧ t.1 = s) (s, log) := by
  unfold change
  refine wlp_seq (readOnly_getPath pwd path).wlp ?_
  rintro ⟨_ | p, cut⟩ ⟨s₁, l⟩ rfl
  · exact wlp_ret fun _ => ⟨rfl, rfl⟩
  refine wlp_seq (readOnly_getState p.id).wlp ?_
  rintro b ⟨s₂, l⟩ rfl
  dsimp only
  split
  · exact wlp_ret fun _ => ⟨rfl, rfl⟩
  · exact wlp_ret fun h => absurd rfl h

/-! ## Answers -/

theorem packet_ne {m : Str} (h : packet (m.take (bufferSize - 1)) ≠ packet (lit "4")) :
    wlp (fsSem P) (sendMsg m) (fun _ t => t.2.getLast? ≠ some (packet (lit "4"))) (s, log) := by
  refine wlp_of_wp (sendMsg_spec ?_)
  rw [List.getLast?_concat]
  exact fun heq => h (Option.some.inj heq)

/-- The status is 4 only if the command has failed. -/
theorem reply_spec {n : Nat} {t : Store × List Msg} :
    wlp (fsSem P) (reply n) (fun _ u => u.1 = t.1 ∧ (u.2.getLast? = some (packet (lit "4")) → n ≠ 0)) t := by
  unfold reply
  refine wlp_of_wp (sendMsg_spec ⟨rfl, fun h => ?_⟩)
  rintro rfl
  rw [List.getLast?_concat] at h
  exact absurd (Option.some.inj h) (by decide)

theorem status_unchanged {command : FsM Nat} (h : wlp (fsSem P) command (fun n t => n ≠ 0 → t.1 = s) (s, log)) :
    wlp (fsSem P) (status pwd command) (Unchanged s pwd) (s, log) := by
  unfold status
  refine wlp_seq h fun n t hn => wlp_seq reply_spec ?_
  rintro - u ⟨hu, h4⟩
  exact wlp_ret fun hlast => ⟨rfl, hu.trans (hn (h4 hlast))⟩

theorem create_unchanged {make : PathT → Str → FsM Nat} (h : wlp (fsSem P) (make pwd path) (fun n t => n ≠ 0 → t.1 = s)
    (s, log)) :
    wlp (fsSem P) (create make pwd path) (Unchanged s pwd) (s, log) := by
  refine status_unchanged ?_
  split
  · exact wlp_ret fun _ => rfl
  · exact h

theorem failure_unchanged {command : FsM Nat} (h : ReadOnly command) :
    wlp (fsSem P) (failure pwd command) (Unchanged s pwd) (s, log) :=
  wlp_mono (failure_spec h) fun _ _ hc _ => hc

theorem message_unchanged {m : Str} {o : Option PathT} (h : packet (m.take (bufferSize - 1)) ≠ packet (lit "4")) :
    wlp (fsSem P) (do sendMsg m; .ret o) (Unchanged s pwd) (s, log) :=
  wlp_seq (packet_ne h) fun _ _ hne => wlp_ret fun h4 => absurd h4 hne

/-- No request but `write` changes anything when it fails, in whatever state. -/
theorem interpret_unchanged {toks : List Str} (h : ∀ a b, toks ≠ [lit "write", a, b]) :
    wlp (fsSem P) (interpret pwd toks) (Unchanged s pwd) (s, log) := by
  have hbad : wlp (fsSem P) (do sendMsg (lit "-1"); .ret (some pwd)) (Unchanged s pwd) (s, log) :=
    message_unchanged (by decide)
  rcases toks with _ | ⟨t, _ | ⟨a, _ | ⟨b, _ | ⟨c, toks⟩⟩⟩⟩
  · exact hbad
  · unfold interpret
    dsimp only
    split
    · exact message_unchanged (by decide)
    split
    · refine wlp_seq (readOnly_list pwd (lit ".")).wlp ?_
      rintro n ⟨s', l⟩ rfl
      exact wlp_ret fun _ => ⟨rfl, rfl⟩
    · exact hbad
  · unfold interpret
    dsimp only
    split
    · exact create_unchanged mkNode_fails
    split
    · exact create_unchanged mkNode_fails
    split
    · exact status_unchanged (wlp_seq rmNode_fails fun _ _ hr => wlp_ret hr)
    split
    · exact status_unchanged (wlp_seq rmNode_fails fun _ _ hr => wlp_ret hr)
    split
    · exact failure_unchanged (readOnly_list pwd a)
    split
    · exact failure_unchanged (readOnly_cat pwd a)
    split
    · refine wlp_seq change_fails ?_
      rintro ⟨n, pwd'⟩ t hc
      refine wlp_seq reply_spec ?_
      rintro - u ⟨hu, h4⟩
      exact wlp_ret fun hlast => ⟨congrArg some (hc (h4 hlast)).1, hu.trans (hc (h4 hlast)).2⟩
    · exact hbad
  · unfold interpret
    dsimp only
    split
    · rename_i ht
      exact absurd (ht ▸ rfl) (h a b)
    split
    · exact status_unchanged append_fails
    · exact hbad
  · exact hbad

end

/-! ## `write` -/

/-- What `wrt` makes is what its append finds: it goes into the dentry, and no other entry has its name. -/
structure Finds (s : Store) (pwd : PathT) (path : Str) : Prop where
  dots : Dotted path
  copy : path.length < 64
  new : ∀ d name, s.insertion pwd path = some (d, name) → name.length ≤ 9 ∧ (s.listing d).length < 4
  old : ∀ p, (s.lookup pwd path).1 = some p → s.state p.id = some iOccupied → s.Removable p.id ∧
    ((s.listing (s.zones p.id).parent).map Prod.fst).count (newName path) = 1

/-- The path leads to no file and `mk_file` has nowhere to put one, so that `wrt` returns before it changes anything. -/
structure Refused (s : Store) (pwd : PathT) (path : Str) : Prop where
  copy : path.length < 64
  file : ∀ p, (s.lookup pwd path).1 = some p → s.state p.id ≠ some iOccupied
  place : s.insertion pwd path = none

section
variable {s : Store} {g : Image} {pwd q : PathT} {dir name path str cut : Str} {es : List Entry}

theorem lookupEntries_eq_none (h : name ∉ es.map Prod.fst) (hne : name ≠ []) : lookupEntries es name = none := by
  cases hfind : lookupEntries es name with
  | none => rfl
  | some id => exact absurd (List.mem_map_of_mem (mem_of_lookupEntries hfind hne)) h

theorem Leads.newName_eq (hl : Leads pwd dir name q) (hdir : DirPath dir) (hname : EntryName name) :
    newName (dir ++ name) = name := by
  obtain ⟨rest, hrm, -⟩ := hl.cuts
  rw [newName, hdir.stem_eq hname, hrm]
  rfl

/-- The last line of `wrt` fails before it makes the file, or not at all. -/
theorem wrtNew_fails (h : Inv s g) (hpwd : pwd.Below) (hnul : NulFree (dir ++ name)) (hdir : DirPath dir)
    (hname : EntryName name) (hstr : NulFree str) (hshort : str.length < 2 ^ 15)
    (hcut : s.insertion pwd (dir ++ name) ≠ none → cut = dir ++ name)
    (hnew : ∀ d nm, s.insertion pwd (dir ++ name) = some (d, nm) → nm.length ≤ 9 ∧ (s.listing d).length < 4) :
    wp (storeSem .kept) (wrtNew pwd (dir ++ name) cut str)
      (fun r s' => r ≠ 0 → s' = s ∧ s.insertion pwd (dir ++ name) = none) s := by
  unfold wrtNew
  refine wp_bind.mpr ?_
  cases hi : s.insertion pwd (dir ++ name) with
  | none =>
    refine mkNode_spec rfl rfl h hpwd hnul blank_newInode isState_iOccupied (fun d nm hd => ?_) (fun _ => ?_)
      fun d nm _ _ _ _ _ _ hd => ?_
    · rw [hi] at hd
      cases hd
    · exact wp_ret.mpr fun _ => ⟨rfl, rfl⟩
    · rw [hi] at hd
      cases hd
  | some ins =>
    obtain ⟨d, nm⟩ := ins
    obtain ⟨hlen, hlt⟩ := hnew d nm hi
    obtain rfl := hcut (by rw [hi]; nofun)
    obtain ⟨rfl, q, hl, rfl⟩ := hname.leads_of_insertion hdir hi
    obtain ⟨-, -, -, -, -, hstate⟩ := insertion_eq hi
    obtain ⟨es, rest, hq⟩ := h.dir_of_state hstate
    obtain ⟨rfl, hes⟩ := h.unchained hq hlt
    have hnone : (s.lookup pwd (dir ++ nm)).1 = none := by
      unfold Store.insertion at hi
      split at hi
      · cases hi
      · rename_i hnone
        rw [hnone]
    rw [hl.lookup_eq hname h hq] at hnone
    refine mkNode_inserted h hpwd hnul hl hname hlen blank_newInode isState_iOccupied hq hes (Option.map_eq_none_iff.mp hnone)
      fun id new s₁ g₁ hins h₁ hlook => ?_
    rw [if_pos rfl]
    have hid : g₁.node id = some (.file []) := by
      have hne : id ≠ q.id := fun heq => by
        have hfree := h.node_eq_none hins.free
        rw [show (nm, id).2 = q.id from heq, hq] at hfree
        cases hfree
      rw [hins.node, if_neg hne, if_pos rfl]
    refine append_spec rfl rfl h₁ hpwd hnul hstr hshort (fun hno => ?_) (fun _ _ _ _ h0 => absurd rfl h0)
      fun _ _ _ _ _ _ _ _ _ _ h0 => absurd rfl h0
    exact absurd (h₁.state id _ hid) (hno (.node id q) (by rw [hlook]))

theorem wrt_refused (h : Inv s g) (hpwd : pwd.Below) (hnul : NulFree path) (hok : Refused s pwd path) :
    wp (storeSem .kept) (wrt pwd path str) (fun _ s' => s' = s) s := by
  unfold wrt
  rw [fPathCpy, if_pos hok.copy]
  refine wp_bind.mpr (wp_ret.mpr (wp_bind.mpr (getPath_spec rfl h.dirs hpwd hnul ?_)))
  have hplace := hok.place
  cases hl : s.lookup pwd path with
  | mk r cut => cases r with
    | none =>
      refine wp_bind.mpr (mkNode_spec rfl rfl h hpwd hnul blank_newInode isState_iOccupied ?_ (fun _ => wp_ret.mpr rfl) ?_)
      · intro d nm hi
        rw [hplace] at hi
        cases hi
      · intro d nm id nd nd' new s' g' hi
        rw [hplace] at hi
        cases hi
    | some p =>
      have hp : (s.lookup pwd path).1 = some p := by rw [hl]
      obtain ⟨b, hb⟩ := (h.dirs.lookup_below hpwd hnul hp).state (s := s)
      refine wp_bind.mpr (getState_spec hb ?_)
      rw [if_neg fun hb' => hok.file p hp (hb.trans (congrArg some hb'))]
      exact wp_ret.mpr rfl

theorem wrt_fails (h : Inv s g) (hpwd : pwd.Below) (hnul : NulFree path) (hstr : NulFree str) (hshort : str.length < 2 ^ 15)
    (hok : Finds s pwd path) : wp (storeSem .kept) (wrt pwd path str) (fun r s' => r ≠ 0 → s' = s) s := by
  obtain ⟨dir, name, hdir, hname, rfl⟩ := hok.dots
  have hbelow := fun p => h.dirs.lookup_below (p := p) hpwd hnul
  unfold wrt
  rw [fPathCpy, if_pos hok.copy]
  refine wp_bind.mpr (wp_ret.mpr (wp_bind.mpr (getPath_spec rfl h.dirs hpwd hnul ?_)))
  cases hl : s.lookup pwd (dir ++ name) with
  | mk r cut => cases r with
    | none =>
      refine wp_mono (wrtNew_fails h hpwd hnul hdir hname hstr hshort (fun hi => ?_) hok.new) fun r s' hr hne => (hr hne).1
      obtain ⟨⟨d, nm⟩, hi⟩ := Option.ne_none_iff_exists'.mp hi
      obtain ⟨rfl, q, hleads, rfl⟩ := hname.leads_of_insertion hdir hi
      obtain ⟨-, -, -, -, -, hstate⟩ := insertion_eq hi
      have hlook := hleads.lookup s
      rw [hl, hname.walk hstate] at hlook
      exact (Prod.mk.inj hlook).2
    | some p =>
      obtain ⟨b, hb⟩ := (hbelow p (by rw [hl])).state (s := s)
      refine wp_bind.mpr (getState_spec hb ?_)
      by_cases hfile : b = iOccupied
      · subst hfile
        rw [if_pos rfl]
        have hp : (s.lookup pwd (dir ++ name)).1 = some p := by rw [hl]
        obtain ⟨hrm, hcount⟩ := hok.old p hp hb
        obtain ⟨q, es, id, rfl, old⟩ := hname.old h hdir hp hrm
        obtain rfl : dir ++ name = cut := congrArg Prod.snd (old.lookup.symm.trans hl)
        have hentries : Entries dentry (s.zones q.id) es := Chain.entries (h.rep _ _ old.parent)
        have hparent : (s.zones (PathT.node id q).id).parent = q.id :=
          (h.entry _ _ (name, id) old.parent (List.mem_append_left _ old.mem)).parent
        rw [hparent, h.listing_eq old.parent, old.leads.newName_eq hdir hname] at hcount
        refine wp_seq (rmFile_old h hpwd hnul old hb hrm) ?_
        rintro ⟨r, cut⟩ s₁ ⟨rfl, g₁, es₁, h₁, hd₁, hperm, -⟩
        have hlist : s₁.listing q.id = es₁ := (h₁.listing_eq hd₁).trans (List.append_nil _)
        -- No entry of the name is left, so that the new one can be made.
        have hnot : name ∉ es₁.map Prod.fst := by
          have hself : entriesOf es [] = es := List.append_nil es
          rw [hself, (hperm.map Prod.fst).count_eq, List.map_cons, List.count_cons_self] at hcount
          exact List.count_eq_zero.mp (by omega)
        have hsub : s₁.lookupSub q.id name = none :=
          (lookupSub_eq (Chain.entries (h₁.rep _ _ hd₁)) hname.nulFree).trans (lookupEntries_eq_none hnot hname.ne)
        have hins := old.leads.insertion_eq hname (h₁.state _ _ hd₁) hsub
        have hlt : es₁.length < 4 := by
          have hle : es.length ≤ 4 := hentries.le
          have := hperm.length_eq
          rw [List.length_cons] at this
          omega
        refine wp_mono (wrtNew_fails h₁ hpwd hnul hdir hname hstr hshort (fun _ => rfl) fun d nm hi => ?_)
          fun r s' hr hne => ?_
        · rw [hins] at hi
          cases hi
          exact ⟨hentries.length_name old.mem, hlist ▸ hlt⟩
        · rw [hins] at hr
          exact absurd (hr hne).2 (Option.some_ne_none _)
      · rw [if_neg hfile]
        exact wp_ret.mpr fun _ => rfl

end

/-- A request that fails changes nothing, and no more does a `write` in a safe run where append finds the new file, or
    where none can be made. -/
theorem failed_request_unchanged (s : Store) (pwd : PathT) :
    (∀ toks, (∀ a b, toks ≠ [lit "write", a, b]) → wlp (fsSem .all) (interpret pwd toks) (Unchanged s pwd) (s, [])) ∧
    ∀ a b, Reached .kept Safe s pwd → NulFree a → NulFree b → b.length < 2 ^ 15 → Finds s pwd a ∨ Refused s pwd a →
      wlp (fsSem .kept) (interpret pwd [lit "write", a, b]) (Unchanged s pwd) (s, []) := by
  refine ⟨fun toks htoks => interpret_unchanged htoks, fun a b h ha hb hshort hok => ?_⟩
  obtain ⟨g, hinv, hpwd⟩ := h.inv fun _ _ _ hok => hok
  have hwrt : wp (storeSem .kept) (wrt pwd a b) (fun r s' => r ≠ 0 → s' = s) s := by
    rcases hok with hfinds | hrefused
    · exact wrt_fails hinv hpwd ha hb hshort hfinds
    · exact wp_mono (wrt_refused hinv hpwd ha hrefused) fun _ _ hs _ => hs
  refine wlp_of_wp (wp_mono (status_spec hwrt) ?_)
  rintro o t ⟨rfl, n, hn, hlog⟩ h4
  refine ⟨rfl, hn ?_⟩
  rintro rfl
  rw [hlog, if_neg (by decide)] at h4
  exact absurd h4 (by decide)

/-- `write d s` on a directory answers 4. -/
theorem failed_request_unchanged_directory : ∃ s o t, s.listing 4 = [(lit "d", 5)] ∧
    Runs (fsSem .kept) (interpret .root [lit "write", lit "d", lit "s"]) (s, []) (some (o, t)) ∧
    t.2.getLast? = some (packet (lit "4")) ∧ o = some .root ∧ t.1 = s := by
  let s := servedDisk [lit "mkdir d"]
  have hreached : Reached .kept Safe s .root := servedDisk_reached (by decide) (by decide) (by decide +kernel)
  have hlist : s.listing 4 = [(lit "d", 5)] := by decide +kernel
  have hfile : ((s.lookup .root (lit "d")).1.map fun p => s.state p.id) = some (some dOccupied) := by decide +kernel
  have hplace : s.insertion .root (lit "d") = none := by decide +kernel
  have hdec : ((fsMachine.exec (interpret .root [lit "write", lit "d", lit "s"]) (s, [])).map fun o =>
      decide (o.2.2.getLast? = some (packet (lit "4")))) = some true := by decide +kernel
  obtain ⟨⟨o, t⟩, hexec, h4⟩ := exists_of_decide hdec
  have hrefused : Refused s .root (lit "d") := by
    refine ⟨by decide, fun p hp heq => ?_, hplace⟩
    rw [hp, Option.map_some, heq] at hfile
    exact absurd hfile (by decide)
  have hrun := (fsMachine_of .kept).runs hexec
  have hsame := (failed_request_unchanged s .root).2 (lit "d") (lit "s") hreached (by decide) (by decide) (by decide)
    (Or.inr hrefused) _ _ hrun h4
  exact ⟨s, o, t, hlist, hrun, h4, hsame⟩

/-- `write /x s` makes an entry `/x`, does not find it, and answers 4. -/
theorem write_root_fails : ¬∀ s pwd toks, Reached .all AnyRequest s pwd → (∀ t ∈ toks, NulFree t) →
    wlp (fsSem .all) (interpret pwd toks) (Unchanged s pwd) (s, []) := by
  intro hall
  have hdec : (fsMachine.exec (interpret .root [lit "write", lit "/x", lit "s"]) (emptyDisk, [])).map (fun o => decide
      (o.2.2.getLast? = some (packet (lit "4")) ∧ o.2.1.listing 4 = [(lit "/x", 5)] ∧ emptyDisk.listing 4 = [])) =
      some true := by decide +kernel
  obtain ⟨⟨o, s', sent⟩, hexec, h4, hlist, hempty⟩ := exists_of_decide hdec
  obtain ⟨-, rfl⟩ := hall emptyDisk .root _ (.format emptyDisk_formatted) (by decide) _ _ ((fsMachine_of .all).runs hexec) h4
  rw [hempty] at hlist
  cases hlist

end MiniFs
