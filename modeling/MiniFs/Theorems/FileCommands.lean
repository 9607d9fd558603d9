import MiniFs.Theorems.Views

/-! # Commands on files

What each command that answers with its success does to the files of a store that keeps the invariant. Whether it succeeds
is known before it runs; of `write` because the zone of a new file is the first free one. -/

namespace MiniFs
open Interact Memory

namespace Files

/-- The path leads to a file. -/
def IsFile (f : Files) (pwd : PathT) (path : Str) : Prop :=
  ∃ p text, (f.lookup pwd path).1 = some p ∧ f p.id = some (.file text)

/-- No object is an entry twice. -/
def Once (f : Files) : Prop := ∀ (d d' : Int) (es es' : List Entry) (i i' : Nat) (e e' : Entry), f d = some (.dir es) →
  f d' = some (.dir es') → es[i]? = some e → es'[i']? = some e' → e.2 = e'.2 → d = d' ∧ i = i'

theorem Removes.unique {f f₁ f₂ : Files} {pwd : PathT} {path : Str} {ok ok' : Bool} (h : f.Once)
    (h₁ : f.Removes pwd path ok f₁) (h₂ : f.Removes pwd path ok' f₂) : f₁ = f₂ := by
  cases h₁ with
  | fails hno =>
    cases h₂ with
    | fails _ => rfl
    | removes hp obj _ _ => exact absurd ((hno _ hp).symm.trans obj) nofun
  | removes hp obj dir entry =>
    cases h₂ with
    | fails hno => exact absurd ((hno _ hp).symm.trans obj) nofun
    | removes hp' obj' dir' entry' =>
      obtain rfl := Option.some.inj (hp.symm.trans hp')
      cases obj.symm.trans obj'
      obtain ⟨rfl, rfl⟩ := h _ _ _ _ _ _ _ _ dir dir' entry entry' rfl
      cases dir.symm.trans dir'
      rfl

end Files

/-- The command succeeds if `ok`, and the files that it leaves are as `R` says. -/
def Leaves (ok : Bool) (R : Files → Prop) (r : Nat) (s' : Store) : Prop := (r = 0 ↔ ok = true) ∧ (∃ g', Inv s' g') ∧ R s'.view

/-- What decides on success before a command runs. -/
theorem exists_success (c : Prop) : ∃ ok : Bool, ok = true ↔ c := by
  by_cases hc : c
  · exact ⟨true, fun _ => hc, fun _ => rfl⟩
  · exact ⟨false, nofun, fun h => absurd h hc⟩

section
variable {P : Policy} {s s' t : Store} {g g' : Image} {pwd : PathT} {path str cut : Str} {n : Node} {ok : Bool}

theorem Inv.once (h : Inv s g) : s.view.Once := by
  have hdir : ∀ {d : Int} {es : List Entry}, s.view d = some (.dir es) → ∃ nd, g.node d = some nd ∧ nd.entries = es := by
    intro d es hd
    obtain ⟨nd, hn, ho⟩ := h.node_of_view hd
    cases nd with
    | dir es' rest =>
      cases ho
      exact ⟨_, hn, rfl⟩
    | file kids => cases ho
  intro d d' es es' i i' e e' hd hd' hi hi' heq
  obtain ⟨nd, hnd, rfl⟩ := hdir hd
  obtain ⟨nd', hnd', rfl⟩ := hdir hd'
  have hparent := (h.entry d nd e hnd (List.mem_of_getElem? hi)).parent
  have hparent' := (h.entry d' nd' e' hnd' (List.mem_of_getElem? hi')).parent
  rw [← heq, hparent] at hparent'
  subst hparent'
  obtain rfl := Option.some.inj (hnd.symm.trans hnd')
  have hlt : i < nd.entries.length := (List.getElem?_eq_some_iff.mp hi).1
  refine ⟨rfl, (List.getElem?_inj (by rwa [List.length_map]) (h.ids d nd hnd)).mp ?_⟩
  rw [List.getElem?_map, List.getElem?_map, hi, hi']
  exact congrArg some heq

/-! ## `touch` and `mkdir` -/

/-- What is there after an insertion is a new object in its directory. -/
structure Linked (s : Store) (pwd : PathT) (path : Str) (o : Obj) (id : Int) (f' : Files) : Prop where
  free : s.view id = none
  le : 4 < id
  lt : id < 1024
  linked : ∃ d es name, s.view.insertion pwd path = some (d, es, name) ∧ f' = s.view.link d es (name, id) o

theorem Inserted.linked {d id : Int} {name : Str} {nd nd' : Node} {new : List Int} (hpath : NulFree path)
    (hi : s.insertion pwd path = some (d, name)) (hins : Inserted s g d (name, id) n nd nd' new s' g') (h : Inv s g)
    (h' : Inv s' g') : Linked s pwd path n.obj id s'.view where
  free := by
    rw [h.view_eq, h.node_eq_none hins.free]
    rfl
  le := by
    obtain ⟨m, hm, -⟩ := h.root
    have hle : 4 ≤ id := hins.le
    have hne : id ≠ 4 := by
      rintro rfl
      cases (h.node_eq_none hins.free).symm.trans hm
    omega
  lt := Store.lt_of_state hins.free
  linked := ⟨d, s.listing d, name, by rw [h.view_insertion hpath, hi]; rfl, hins.view h h'⟩

theorem mkNode_makes (hP : P.room = true) (hS : P.slots = true) (h : Inv s g) (hpwd : pwd.Below) (hpath : NulFree path)
    {make : Int → UInt64 → Zone} (hb : Blank n make) (hn : IsState n.state)
    (hlen : ∀ d name, s.insertion pwd path = some (d, name) → name.length ≤ 9)
    (hok : ok = true ↔ s.view.insertion pwd path ≠ none) :
    wp (storeSem P) (mkNode n.state make pwd path) (Leaves ok (s.view.Makes pwd path n.obj ok)) s := by
  refine mkNode_spec hP hS h hpwd hpath hb hn hlen (fun hnone => ?_) fun d name id nd nd' new s' g' hi hins h' => ?_
  · have hview : s.view.insertion pwd path = none := by
      rw [h.view_insertion hpath, hnone]
      rfl
    have hfalse : ok = false := Bool.eq_false_iff.mpr fun htrue => hok.mp htrue hview
    subst hfalse
    exact ⟨by decide, ⟨g, h⟩, .fails hview⟩
  · obtain ⟨hfree, hle, hlt, d', es, name', hview, heq⟩ := hins.linked hpath hi h h'
    obtain rfl : ok = true := hok.mpr (by rw [hview]; nofun)
    exact ⟨by decide, ⟨g', h'⟩, heq ▸ .makes hview hfree hle hlt⟩

/-! ## `rm` and `rmdir` -/

/-- What `rm_file` or `rm_dir` leaves where it frees the zones `ids` of an object. -/
structure AfterRemoval (ids : Int → Node → List Int) (s : Store) (g : Image) (pwd : PathT) (path : Str) (ok : Bool)
    (s' : Store) : Prop where
  inv : ∃ g', Inv s' g'
  view : s.view.Removes pwd path ok s'.view
  state : ∀ z, ((∃ p n, (s.lookup pwd path).1 = some p ∧ 4 ≤ p.id ∧ g.node p.id = some n ∧ z ∈ ids p.id n) ∧
    s'.state z = some unoccupied) ∨
    (¬(∃ p n, (s.lookup pwd path).1 = some p ∧ 4 ≤ p.id ∧ g.node p.id = some n ∧ z ∈ ids p.id n) ∧ s'.state z = s.state z)

/-- The files and the bitmap after a removal depend on those before it only. -/
theorem AfterRemoval.unique {ids : Int → Node → List Int} {ok' : Bool} (h : Inv s g)
    (h₁ : AfterRemoval ids s g pwd path ok s') (h₂ : AfterRemoval ids s g pwd path ok' t) :
    s'.view = t.view ∧ ∀ z, t.state z = s'.state z := by
  refine ⟨h₁.view.unique h.once h₂.view, fun z => ?_⟩
  rcases h₁.state z with ⟨hin, hs⟩ | ⟨hout, hs⟩
  · rcases h₂.state z with ⟨-, ht⟩ | ⟨hout, -⟩
    · rw [hs, ht]
    · exact absurd hin hout
  · rcases h₂.state z with ⟨hin, -⟩ | ⟨-, ht⟩
    · exact absurd hin hout
    · rw [hs, ht]

theorem rmNode_removes (hS : P.slots = true) (h : Inv s g) (hpwd : pwd.Below) (hpath : NulFree path) {rm : Int → FsM Unit}
    {ids : Int → Node → List Int}
    (hrm : ∀ p n, (s.lookup pwd path).1 = some p → 4 ≤ p.id → g.node p.id = some n → Within p.id n (ids p.id n) ∧
      wp (storeSem P) (rm p.id) (fun _ s' => s.Frees (ids p.id n) s') s)
    (hall : ∀ p n, (s.lookup pwd path).1 = some p → 4 ≤ p.id → g.node p.id = some n → ∀ e ∈ n.entries, e.2 ∈ ids p.id n)
    (hremovable : ∀ p, (s.lookup pwd path).1 = some p → 4 ≤ p.id → s.Removable p.id)
    (hok : ok = true ↔ ∃ p, (s.lookup pwd path).1 = some p ∧ 4 ≤ p.id) :
    wp (storeSem P) (rmNode rm pwd path) (fun r s' => r.2 = (s.lookup pwd path).2 ∧ (r.1 = 0 ↔ ok = true) ∧
      AfterRemoval ids s g pwd path ok s') s := by
  refine rmNode_swap hS h hpwd hpath hrm hremovable (fun hlt => ⟨rfl, ?_⟩)
    fun p n d e nd nd' s' g' hp hn heq her h' hswap => ⟨rfl, ?_⟩
  · have hno : ¬∃ p, (s.lookup pwd path).1 = some p ∧ 4 ≤ p.id := by
      rintro ⟨p, hp, h4⟩
      have := hlt p hp
      omega
    have hfalse : ok = false := Bool.eq_false_iff.mpr fun htrue => hno (hok.mp htrue)
    subst hfalse
    refine ⟨iff_of_false Nat.one_ne_zero Bool.false_ne_true, ⟨g, h⟩, .fails fun p hp => ?_, fun z => Or.inr ⟨?_, rfl⟩⟩
    · rw [h.view_lookup hpath] at hp
      have hlt := hlt p hp
      rw [h.view_eq]
      cases hn : g.node p.id with
      | none => rfl
      | some n =>
        have := h.le hn
        omega
    · rintro ⟨p, n, hp, h4, -⟩
      exact hno ⟨p, hp, h4⟩
  · have h4 : 4 ≤ p.id := h.le hn
    obtain rfl : ok = true := hok.mpr ⟨p, hp, h4⟩
    obtain ⟨hwithin, -⟩ := hrm p n hp h4 hn
    obtain ⟨i, hi, hentries⟩ := hswap
    have hdir : s.view d = some (.dir nd.entries) := by
      rw [h.view_node her.dir]
      cases nd with
      | dir es rest => rfl
      | file kids => cases hi
    refine ⟨iff_of_true rfl rfl, ⟨g', h'⟩, ?_, fun z => ?_⟩
    · have hentry : nd.entries[i]? = some (e.1, p.id) := heq ▸ hi
      rw [her.view h h' hn hwithin (hall p n hp h4 hn), hentries]
      exact .removes (by rw [h.view_lookup hpath, hp]) (h.view_node hn) hdir hentry
    · have hiff : (∃ q m, (s.lookup pwd path).1 = some q ∧ 4 ≤ q.id ∧ g.node q.id = some m ∧ z ∈ ids q.id m) ↔
          z ∈ ids p.id n := by
        constructor
        · rintro ⟨q, m, hq, -, hm, hz⟩
          obtain rfl := Option.some.inj (hp.symm.trans hq)
          obtain rfl := Option.some.inj (hn.symm.trans hm)
          exact hz
        · exact fun hz => ⟨p, n, hp, h4, hn, hz⟩
      rw [hiff, her.state]
      by_cases hz : z ∈ ids p.id n
      · rw [if_pos hz]
        exact Or.inl ⟨hz, rfl⟩
      · rw [if_neg hz]
        exact Or.inr ⟨hz, rfl⟩

/-- What `rm` can remove has no entries. -/
theorem Store.RmFileOk.no_entries {id : Int} (hok : s.RmFileOk id) (h : Inv s g) (h4 : 4 ≤ id) (hn : g.node id = some n) :
    n.entries = [] := by
  have hstate := h.state _ _ hn
  cases n with
  | file kids => rfl
  | dir es rest =>
    have hchain : Chain s.zones dentry id es rest := h.rep _ _ hn
    rcases hok with hlt | ⟨-, hfile | ⟨-, hzero⟩⟩
    · omega
    · exact absurd (Option.some.inj (hstate.symm.trans hfile)) dOccupied_ne_iOccupied
    · obtain rfl : es = [] := List.eq_nil_iff_length_eq_zero.mpr
        (Nat.le_zero.mp ((hchain.entries.subId_eq_zero (by decide)).mp hzero))
      cases rest with
      | nil => rfl
      | cons seg rest => exact absurd hchain.2.1 (by decide)

theorem rmFile_removes (hS : P.slots = true) (h : Inv s g) (hpwd : pwd.Below) (hpath : NulFree path)
    (hsafe : ∀ p, (s.lookup pwd path).1 = some p → s.RmFileOk p.id)
    (hok : ok = true ↔ ∃ p, (s.lookup pwd path).1 = some p ∧ 4 ≤ p.id) :
    wp (storeSem P) (rmFile pwd path) (fun r s' => r.2 = (s.lookup pwd path).2 ∧ (r.1 = 0 ↔ ok = true) ∧
      AfterRemoval rmInodeIds s g pwd path ok s') s := by
  refine rmNode_removes hS h hpwd hpath (fun p n hp h4 hn => h.rmFile_frees h4 (hsafe p hp) hn)
    (fun p n hp h4 hn e he => ?_) (fun p hp h4 => ?_) hok
  · rw [(hsafe p hp).no_entries h h4 hn] at he
    cases he
  · rcases hsafe p hp with hlt | ⟨hrm, -⟩
    · omega
    · exact hrm

theorem rmDir_removes (hS : P.slots = true) (h : Inv s g) (hpwd : pwd.Below) (hpath : NulFree path)
    (hsafe : ∀ p, (s.lookup pwd path).1 = some p → s.RmDirOk p.id)
    (hok : ok = true ↔ ∃ p, (s.lookup pwd path).1 = some p ∧ 4 ≤ p.id) :
    wp (storeSem P) (rmDir pwd path) (fun r s' => r.2 = (s.lookup pwd path).2 ∧ (r.1 = 0 ↔ ok = true) ∧
      AfterRemoval rmDentryIds s g pwd path ok s') s := by
  refine rmNode_removes hS h hpwd hpath (fun p n hp h4 hn => rmDir_frees h h4 (hsafe p hp) hn)
    (fun p n hp h4 hn e he => ?_) (fun p hp h4 => ?_) hok
  · cases n with
    | file kids => cases he
    | dir es rest => exact mem_chainIds.mpr (Or.inr (Or.inr ⟨e, he, rfl⟩))
  · rcases hsafe p hp with hlt | ⟨hrm, -⟩
    · omega
    · exact hrm

/-! ## `append` -/

theorem Inv.isFile_iff (h : Inv s g) (hpath : NulFree path) :
    s.view.IsFile pwd path ↔ ∃ p, (s.lookup pwd path).1 = some p ∧ s.state p.id = some iOccupied := by
  unfold Files.IsFile
  rw [h.view_lookup hpath]
  constructor
  · rintro ⟨p, text, hp, ht⟩
    exact ⟨p, hp, h.view_file_iff.mp ⟨text, ht⟩⟩
  · rintro ⟨p, hp, hs⟩
    obtain ⟨text, ht⟩ := h.view_file_iff.mpr hs
    exact ⟨p, text, hp, ht⟩

theorem append_appends (hP : P.room = true) (hS : P.slots = true) (h : Inv s g) (hpwd : pwd.Below) (hpath : NulFree path)
    (hstr : NulFree str) (hshort : str.length < 2 ^ 15) (hok : ok = true ↔ s.view.IsFile pwd path) :
    wp (storeSem P) (append pwd path str) (Leaves ok (s.view.Appends pwd path str ok)) s := by
  rw [h.isFile_iff hpath] at hok
  refine append_text hP hS h hpwd hpath hstr hshort (fun hno => ?_) (fun p hp hs hnil => ?_)
    fun p kids kids' new s' g' hp hs hext h' htext => ?_
  · have hfalse : ok = false := Bool.eq_false_iff.mpr fun htrue => by
      obtain ⟨p, hp, hs⟩ := hok.mp htrue
      exact hno p hp hs
    subst hfalse
    refine ⟨by decide, ⟨g, h⟩, .fails fun p text hp ht => ?_⟩
    rw [h.view_lookup hpath] at hp
    exact hno p hp (h.view_file_iff.mp ⟨text, ht⟩)
  · obtain rfl : ok = true := hok.mpr ⟨p, hp, hs⟩
    obtain ⟨text, ht⟩ := h.view_file_iff.mpr hs
    have hsame : s.view.set p.id (.file (text ++ str)) = s.view := by
      funext i
      unfold Files.set
      split
      · rename_i hi
        rw [hi, ht, hnil, List.append_nil]
      · rfl
    have happ : s.view.Appends pwd path str true (s.view.set p.id (.file (text ++ str))) :=
      .appends (by rw [h.view_lookup hpath, hp]) ht
    rw [hsame] at happ
    exact ⟨by decide, ⟨g, h⟩, happ⟩
  · obtain rfl : ok = true := hok.mpr ⟨p, hp, hs⟩
    refine ⟨by decide, ⟨g', h'⟩, ?_⟩
    rw [hext.view h h' (h.room hext.file hshort ▸ htext)]
    exact .appends (by rw [h.view_lookup hpath, hp]) (h.view_node hext.file)

/-! ## `write` -/

/-- The last line of `wrt` succeeds. -/
def Renewable (s : Store) (pwd : PathT) (path cut : Str) : Prop :=
  ∃ d es name id, s.view.insertion pwd path = some (d, es, name) ∧ s.First id ∧
    (s.view.link d es (name, id) (.file [])).IsFile pwd cut

theorem Renewable.congr (hview : s.view = t.view) (hstate : ∀ z, t.state z = s.state z) (h : Renewable s pwd path cut) :
    Renewable t pwd path cut := by
  obtain ⟨d, es, name, id, hi, hfirst, hfile⟩ := h
  refine ⟨d, es, name, id, hview ▸ hi, ⟨hfirst.le, (hstate id).trans hfirst.free, fun j hj hlt => ?_⟩, hview ▸ hfile⟩
  rw [hstate]
  exact hfirst.least j hj hlt

theorem wrtNew_renews (hP : P.room = true) (hS : P.slots = true) (h : Inv s g) (hpwd : pwd.Below) (hpath : NulFree path)
    (hcut : NulFree cut) (hstr : NulFree str) (hshort : str.length < 2 ^ 15)
    (hlen : ∀ d name, s.insertion pwd path = some (d, name) → name.length ≤ 9)
    (hok : ok = true ↔ Renewable s pwd path cut) :
    wp (storeSem P) (wrtNew pwd path cut str) (Leaves ok (s.view.Renews pwd path cut str ok)) s := by
  unfold wrtNew
  refine wp_bind.mpr (mkNode_first hP hS h hpwd hpath blank_newInode isState_iOccupied hlen (fun hnone => ?_)
    fun d name id nd nd' new s₁ g₁ hi hfirst hins h₁ => ?_)
  · have hview : s.view.insertion pwd path = none := by
      rw [h.view_insertion hpath, hnone]
      rfl
    have hfalse : ok = false := Bool.eq_false_iff.mpr fun htrue => by
      obtain ⟨_, _, _, _, hsome, -⟩ := hok.mp htrue
      cases hview.symm.trans hsome
    subst hfalse
    exact wp_ret.mpr ⟨by decide, ⟨g, h⟩, .fails (.fails hview)⟩
  · rw [if_pos rfl]
    obtain ⟨hfree, hle, hlt, d', es, name', hview, heq⟩ := hins.linked hpath hi h h₁
    have hiff : ok = true ↔ s₁.view.IsFile pwd cut := by
      rw [hok, heq]
      constructor
      · rintro ⟨_, _, _, id', hi', hfirst', hfile⟩
        cases hview.symm.trans hi'
        rwa [hfirst.unique hfirst' fun _ => rfl]
      · exact fun hfile => ⟨_, _, _, id, hview, hfirst, hfile⟩
    refine wp_mono (append_appends hP hS h₁ hpwd hcut hstr hshort hiff) ?_
    rintro r s' ⟨hr, hinv, happ⟩
    exact ⟨hr, hinv, .makes (heq ▸ .makes hview hfree hle hlt) happ⟩

theorem wrt_writes (hP : P.room = true) (hS : P.slots = true) (h : Inv s g) (hpwd : pwd.Below) (hpath : NulFree path)
    (hstr : NulFree str) (hshort : str.length < 2 ^ 15) (hsafe : SafeWrite s pwd path) :
    ∃ ok, wp (storeSem P) (wrt pwd path str) (Leaves ok (s.view.Writes pwd path str ok)) s := by
  have hcut : NulFree (s.lookup pwd path).2 := lookup_nulFree hpath
  have hlook : s.view.lookup pwd path = s.lookup pwd path := h.view_lookup hpath
  -- The end of `write` in each store that is there then.
  have hend : ∀ {s₁ : Store} {g₁ : Image} {cut' : Str} {ok : Bool}, NulFree cut' → Inv s₁ g₁ →
      (∀ d name, s₁.insertion pwd path = some (d, name) → name.length ≤ 9) → (ok = true ↔ Renewable s₁ pwd path cut') →
      (∀ f', s₁.view.Renews pwd path cut' str ok f' → s.view.Writes pwd path str ok f') →
      wp (storeSem P) (wrtNew pwd path cut' str) (Leaves ok (s.view.Writes pwd path str ok)) s₁ := by
    intro s₁ g₁ cut' ok hcut' h₁ hlen hok hall
    refine wp_mono (wrtNew_renews hP hS h₁ hpwd hpath hcut' hstr hshort hlen hok) ?_
    rintro r s' ⟨hr, hinv, hrenews⟩
    exact ⟨hr, hinv, hall _ hrenews⟩
  unfold wrt
  rw [fPathCpy, if_pos hsafe.copy]
  cases hl : (s.lookup pwd path).1 with
  | none =>
    obtain ⟨ok, hok⟩ := exists_success (Renewable s pwd path (s.lookup pwd path).2)
    refine ⟨ok, wp_bind.mpr (wp_ret.mpr (wp_bind.mpr (getPath_spec hS h.dirs hpwd hpath ?_)))⟩
    rw [← Prod.mk.eta (p := s.lookup pwd path), hl]
    refine hend hcut h hsafe.name hok fun f' hr => .new ?_ ?_
    · rw [hlook, hl]
    · rwa [hlook]
  | some p =>
    by_cases hfile : s.state p.id = some iOccupied
    · obtain ⟨hname, hrm⟩ := hsafe.old p hl hfile
      obtain ⟨text, htext⟩ := h.view_file_iff.mpr hfile
      obtain ⟨ok₁, hok₁⟩ := exists_success (∃ q, (s.lookup pwd (s.lookup pwd path).2).1 = some q ∧ 4 ≤ q.id)
      obtain ⟨ok, hok⟩ := exists_success (∃ t, AfterRemoval rmInodeIds s g pwd (s.lookup pwd path).2 ok₁ t ∧
        Renewable t pwd path (s.lookup pwd (s.lookup pwd path).2).2)
      refine ⟨ok, wp_bind.mpr (wp_ret.mpr (wp_bind.mpr (getPath_spec hS h.dirs hpwd hpath ?_)))⟩
      rw [← Prod.mk.eta (p := s.lookup pwd path), hl]
      refine wp_bind.mpr (getState_spec hfile ?_)
      rw [if_pos rfl]
      refine wp_seq (rmFile_removes hS h hpwd hcut hrm hok₁) ?_
      rintro ⟨r, cut'⟩ s₁ ⟨rfl, -, hgone⟩
      obtain ⟨g₁, h₁⟩ := hgone.inv
      refine hend (lookup_nulFree hcut) h₁ (fun d name hi => newName_eq hi ▸ hname) ?_ fun f' hr => ?_
      · rw [hok]
        constructor
        · rintro ⟨t, ht, hrenewable⟩
          obtain ⟨hview, hstate⟩ := ht.unique h hgone
          exact hrenewable.congr hview hstate
        · exact fun hrenewable => ⟨s₁, hgone, hrenewable⟩
      · have hrm : s.view.Removes pwd (s.view.lookup pwd path).2 ok₁ s₁.view := hlook ▸ hgone.view
        refine .old (by rw [hlook, hl]) htext hrm ?_
        rw [hlook, h.view_lookup hcut]
        exact hr
    · refine ⟨false, wp_bind.mpr (wp_ret.mpr (wp_bind.mpr (getPath_spec hS h.dirs hpwd hpath ?_)))⟩
      rw [← Prod.mk.eta (p := s.lookup pwd path), hl]
      obtain ⟨b, hb⟩ := (h.dirs.lookup_below hpwd hpath hl).state (s := s)
      refine wp_bind.mpr (getState_spec hb ?_)
      rw [if_neg fun heq : b = iOccupied => hfile (heq ▸ hb)]
      refine wp_ret.mpr ⟨by decide, ⟨g, h⟩, .blocked (by rw [hlook, hl]) fun text ht => ?_⟩
      exact hfile (h.view_file_iff.mp ⟨text, ht⟩)

end

end MiniFs
