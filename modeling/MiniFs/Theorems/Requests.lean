import MiniFs.Theorems.Commands
import MiniFs.Theorems.ReadOnly

/-! # Requests

A request makes a few changes to the image, each as its rules say, and the invariant holds after each. What the rules
are is left open: a property of images that such changes keep is kept by every request that follows the rules. -/

namespace MiniFs
open Interact Memory

/-! ## Changes -/

/-- Which names may be inserted into a directory, and which zones may go with a node. -/
structure Rules where
  insert : Node → Str → Prop
  erase : Image → Int → List Int → Prop

inductive Change (r : Rules) (s : Store) (g : Image) (s' : Store) (g' : Image) : Prop where
  | insert {d : Int} {e : Entry} {n nd nd' : Node} {new : List Int} (h : Inserted s g d e n nd nd' new s' g')
      (short : e.1.length ≤ 9) (ok : r.insert nd e.1)
  | erase {d : Int} {e : Entry} {nd nd' : Node} {zs : List Int} (h : Erased s g d e nd nd' zs s' g')
      (ok : r.erase g e.2 zs)
  | extend {id : Int} {kids kids' : List Kid} {new : List Int} (h : Extended s g id kids kids' new s' g')

/-- Some changes that follow the rules. -/
inductive Changes (r : Rules) (s : Store) (g : Image) : Store → Image → Prop where
  | nil : Changes r s g s g
  | snoc {s₁ : Store} {g₁ : Image} {s' : Store} {g' : Image} (h : Changes r s g s₁ g₁) (hc : Change r s₁ g₁ s' g')
      (hinv : Inv s' g') : Changes r s g s' g'

theorem Changes.trans {r : Rules} {s s₁ s' : Store} {g g₁ g' : Image} (h : Changes r s g s₁ g₁) (h' : Changes r s₁ g₁ s' g') :
    Changes r s g s' g' := by
  induction h' with
  | nil => exact h
  | snoc _ hc hinv ih => exact .snoc ih hc hinv

/-- What every change keeps is kept by some changes. -/
theorem Changes.keeps {r : Rules} {s s' : Store} {g g' : Image} {J : Store → Image → Prop} (h : Changes r s g s' g')
    (hinv : Inv s g) (hJ : J s g) (hstep : ∀ s g s' g', Inv s g → J s g → Change r s g s' g' → Inv s' g' → J s' g') :
    J s' g' ∧ Inv s' g' := by
  induction h with
  | nil => exact ⟨hJ, hinv⟩
  | snoc h hc hinv' ih => exact ⟨hstep _ _ _ _ ih.2 ih.1 hc hinv', hinv'⟩

/-! ## Requests without a wrong removal -/

/-- The name that `mk_file` cuts off what `get_path` leaves of a path. -/
def newName (path : Str) : Str := ((rmName (stem path)).map Prod.fst).getD []

/-- A `write` that copies its path within bounds, removes what it can, and inserts a name of at most nine characters. -/
structure SafeWrite (s : Store) (pwd : PathT) (path : Str) : Prop where
  copy : path.length < 64
  name : ∀ d name, s.insertion pwd path = some (d, name) → name.length ≤ 9
  old : ∀ p, (s.lookup pwd path).1 = some p → s.state p.id = some iOccupied → (newName path).length ≤ 9 ∧
    ∀ q, (s.lookup pwd (s.lookup pwd path).2).1 = some q → s.RmFileOk q.id

instance (s : Store) (pwd : PathT) (path : Str) : Decidable (SafeWrite s pwd path) :=
  decidable_of_iff (path.length < 64 ∧ (∀ x ∈ s.insertion pwd path, x.2.length ≤ 9) ∧ ∀ p ∈ (s.lookup pwd path).1,
      s.state p.id = some iOccupied → (newName path).length ≤ 9 ∧
        ∀ q ∈ (s.lookup pwd (s.lookup pwd path).2).1, s.RmFileOk q.id)
    ⟨fun h => ⟨h.1, fun d name hi => h.2.1 (d, name) hi, h.2.2⟩, fun h => ⟨h.copy, fun x hx => h.name x.1 x.2 hx, h.old⟩⟩

/-- A request that removes no more than it can and inserts no name that is too long for a slot. -/
def Safe (s : Store) (pwd : PathT) : List Str → Prop
  | [t, a] =>
    (t = lit "rm" → ∀ p, (s.lookup pwd a).1 = some p → s.RmFileOk p.id) ∧
      (t = lit "rmdir" → ∀ p, (s.lookup pwd a).1 = some p → s.RmDirOk p.id)
  | [t, a, _] => t = lit "write" → SafeWrite s pwd a
  | _ => True

instance (s : Store) (pwd : PathT) : (toks : List Str) → Decidable (Safe s pwd toks)
  | [t, a] => inferInstanceAs (Decidable ((t = lit "rm" → ∀ p ∈ (s.lookup pwd a).1, s.RmFileOk p.id) ∧
      (t = lit "rmdir" → ∀ p ∈ (s.lookup pwd a).1, s.RmDirOk p.id)))
  | [t, a, _] => inferInstanceAs (Decidable (t = lit "write" → SafeWrite s pwd a))
  | [] | [_] | _ :: _ :: _ :: _ :: _ => .isTrue trivial

/-- What `write` finds once the old file is removed. -/
def Rewritten (s : Store) (g : Image) (pwd : PathT) (path : Str) (s₁ : Store) (g₁ : Image) : Prop :=
  s₁ = s ∧ g₁ = g ∨ ∃ q n d e nd nd', (s.lookup pwd (s.lookup pwd path).2).1 = some q ∧ g.node q.id = some n ∧ e.2 = q.id ∧
    Erased s g d e nd nd' (rmInodeIds q.id n) s₁ g₁

/-- The requests that go on to `mk_file` or `mk_dir`. -/
def Creates (toks : List Str) (a : Str) : Prop :=
  (toks = [lit "touch", a] ∨ toks = [lit "mkdir", a]) ∧ a.length ≤ 9 ∨ ∃ b, toks = [lit "write", a, b]

/-- A request whose changes follow the rules. -/
structure Follows (r : Rules) (s : Store) (g : Image) (pwd : PathT) (toks : List Str) : Prop where
  insert : ∀ a d name nd, Creates toks a → s.insertion pwd a = some (d, name) → g.node d = some nd → r.insert nd name
  rm : ∀ a p n, toks = [lit "rm", a] → (s.lookup pwd a).1 = some p → g.node p.id = some n →
    r.erase g p.id (rmInodeIds p.id n)
  rmdir : ∀ a p n, toks = [lit "rmdir", a] → (s.lookup pwd a).1 = some p → g.node p.id = some n →
    r.erase g p.id (rmDentryIds p.id n)
  rewrite : ∀ a b p, toks = [lit "write", a, b] → (s.lookup pwd a).1 = some p → s.state p.id = some iOccupied →
    (∀ q n, (s.lookup pwd (s.lookup pwd a).2).1 = some q → g.node q.id = some n → r.erase g q.id (rmInodeIds q.id n)) ∧
    ∀ s₁ g₁, Rewritten s g pwd a s₁ g₁ → ∀ d name nd, s₁.insertion pwd a = some (d, name) → g₁.node d = some nd →
      r.insert nd name

section
variable {P : Policy} {r : Rules} {s : Store} {g : Image} {pwd : PathT} {path str : Str} {log : List Msg}

theorem newName_eq {d : Int} {name : Str} (h : s.insertion pwd path = some (d, name)) : newName path = name := by
  obtain ⟨rest, q, hrm, -⟩ := insertion_eq h
  rw [newName, hrm]
  rfl

/-- The last line of `wrt` -/
theorem wrtNew_spec (hP : P.room = true) (hS : P.slots = true) (h : Inv s g) (hpwd : pwd.Below) (hpath : NulFree path)
    {cut : Str} (hcut : NulFree cut) (hstr : NulFree str) (hshort : str.length < 2 ^ 15)
    (hok : ∀ d name nd, s.insertion pwd path = some (d, name) → g.node d = some nd → name.length ≤ 9 ∧ r.insert nd name) :
    wp (storeSem P) (wrtNew pwd path cut str) (fun _ s' => ∃ g', Changes r s g s' g' ∧ Inv s' g') s := by
  have hnode : ∀ d name, s.insertion pwd path = some (d, name) → ∃ nd, g.node d = some nd := fun d name hi => by
    obtain ⟨-, -, -, -, -, hstate⟩ := insertion_eq hi
    obtain ⟨es, rest, hd⟩ := h.dir_of_state hstate
    exact ⟨_, hd⟩
  unfold wrtNew
  refine wp_bind.mpr (mkNode_spec hP hS h hpwd hpath blank_newInode isState_iOccupied (fun d name hi => ?_) (fun _ => ?_) ?_)
  · obtain ⟨nd, hd⟩ := hnode d name hi
    exact (hok d name nd hi hd).1
  · exact wp_ret.mpr ⟨g, .nil, h⟩
  · intro d name id nd nd' new s₁ g₁ hi hins hinv
    obtain ⟨hnine, hrule⟩ := hok d name nd hi hins.dir
    have hone : Changes r s g s₁ g₁ := .snoc .nil (.insert hins hnine hrule) hinv
    rw [if_pos rfl]
    refine append_spec hP hS hinv hpwd hcut hstr hshort (fun _ => ⟨g₁, hone, hinv⟩) (fun _ _ _ _ => ⟨g₁, hone, hinv⟩) ?_
    exact fun p kids kids' new' s₂ g₂ _ _ hext hinv₂ => ⟨g₂, .snoc hone (.extend hext) hinv₂, hinv₂⟩

theorem wrt_spec (hP : P.room = true) (hS : P.slots = true) (h : Inv s g) (hpwd : pwd.Below) (hpath : NulFree path)
    (hstr : NulFree str) (hshort : str.length < 2 ^ 15) (hsafe : SafeWrite s pwd path)
    (hf : Follows r s g pwd [lit "write", path, str]) :
    wp (storeSem P) (wrt pwd path str) (fun _ s' => ∃ g', Changes r s g s' g' ∧ Inv s' g') s := by
  have hcut : NulFree (s.lookup pwd path).2 := lookup_nulFree hpath
  have hstay := fun q => h.dirs.lookup_below (p := q) hpwd hpath
  unfold wrt
  rw [fPathCpy, if_pos hsafe.copy]
  refine wp_bind.mpr (wp_ret.mpr (wp_bind.mpr (getPath_spec hS h.dirs hpwd hpath ?_)))
  have hold := hsafe.old
  have hrewrite := fun p => hf.rewrite path str p rfl
  have hres : ∀ s₁ g₁ cut', NulFree cut' → Inv s₁ g₁ → Changes r s g s₁ g₁ →
      (∀ d name nd, s₁.insertion pwd path = some (d, name) → g₁.node d = some nd → name.length ≤ 9 ∧ r.insert nd name) →
      wp (storeSem P) (wrtNew pwd path cut' str) (fun _ s' => ∃ g', Changes r s g s' g' ∧ Inv s' g') s₁ := by
    intro s₁ g₁ cut' hcut' hinv hch hok
    refine wp_mono (wrtNew_spec hP hS hinv hpwd hpath hcut' hstr hshort hok) ?_
    rintro - s' ⟨g', hch', hinv'⟩
    exact ⟨g', hch.trans hch', hinv'⟩
  cases hl : s.lookup pwd path with
  | mk res cut =>
    rw [hl] at hold hrewrite hcut hstay
    cases res with
    | none =>
      refine hres s g cut hcut h .nil fun d name nd hi hd => ⟨hsafe.name d name hi, ?_⟩
      exact hf.insert path d name nd (Or.inr ⟨str, rfl⟩) hi hd
    | some p =>
      dsimp only at hold hrewrite hcut hstay ⊢
      obtain ⟨b, hb⟩ := (hstay p rfl).state (s := s)
      refine wp_bind.mpr (getState_spec hb ?_)
      by_cases hfile : b = iOccupied
      · subst hfile
        rw [if_pos rfl]
        obtain ⟨hname, hrm⟩ := hold p rfl hb
        obtain ⟨herase, hinsert⟩ := hrewrite p rfl hb
        have hins : ∀ s₁ g₁, Rewritten s g pwd path s₁ g₁ → ∀ d name nd, s₁.insertion pwd path = some (d, name) →
            g₁.node d = some nd → name.length ≤ 9 ∧ r.insert nd name := fun s₁ g₁ hre d name nd hi hd =>
          ⟨newName_eq hi ▸ hname, hinsert s₁ g₁ hre d name nd hi hd⟩
        have hcut' : NulFree (s.lookup pwd cut).2 := lookup_nulFree hcut
        refine wp_bind.mpr (rmNode_spec hS h hpwd hcut (fun q n hq h4 hn => show Within q.id n (rmInodeIds q.id n) ∧
          _ from h.rmFile_frees h4 (hrm q hq) hn)
          (fun q hq h4 => ?_) (fun _ => ?_) ?_)
        · rcases hrm q hq with hlt | hok
          · omega
          · exact hok.1
        · exact hres s g _ hcut' h .nil (hins s g (Or.inl ⟨rfl, rfl⟩))
        · intro q n d e nd nd' s₁ g₁ hq hn heq her hinv
          refine hres s₁ g₁ _ hcut' hinv (.snoc .nil (.erase her ?_) hinv) (hins s₁ g₁ (Or.inr ?_))
          · exact heq ▸ herase q n hq hn
          · exact ⟨q, n, d, e, nd, nd', by rw [hl]; exact hq, hn, heq, her⟩
      · rw [if_neg hfile]
        exact wp_ret.mpr ⟨g, .nil, h⟩

/-! ## `interpret` -/

theorem sendMsg_spec {msg : Str} {Q : Unit → Store × List Msg → Prop}
    (h : Q () (s, log ++ [packet (msg.take (bufferSize - 1))])) : wp (fsSem P) (sendMsg msg) Q (s, log) := by
  refine wp_write.mpr ?_
  rintro o rfl
  exact ⟨_, rfl, wp_ret.mpr h⟩

/-- A command that answers with its status sends one message. -/
theorem status_spec {command : FsM Nat} {R : Nat → Store → Prop} (h : wp (storeSem P) command R s) :
    wp (fsSem P) (status pwd command) (fun o t => o = some pwd ∧ ∃ n, R n t.1 ∧
      t.2 = log ++ [packet (if n ≠ 0 then lit "4" else lit "0")]) (s, log) := by
  unfold status
  refine wp_bind.mpr (wp_mono (wp_fsSem h) ?_)
  rintro n ⟨s', l⟩ ⟨rfl, hR⟩
  refine wp_bind.mpr (sendMsg_spec (wp_ret.mpr ⟨rfl, n, hR, ?_⟩))
  by_cases hn : n ≠ 0
  · rw [if_pos hn]
    rfl
  · rw [if_neg hn]
    rfl

/-- A command that reports failures only, and does not change the store. -/
theorem failure_spec {command : FsM Nat} (h : ReadOnly command) :
    wlp (fsSem P) (failure pwd command) (fun o t => o = some pwd ∧ t.1 = s) (s, log) := by
  unfold failure
  refine wlp_seq h.wlp ?_
  rintro n ⟨s', l⟩ rfl
  split
  · exact wlp_of_wp (wp_bind.mpr (sendMsg_spec (wp_ret.mpr ⟨rfl, rfl⟩)))
  · exact wlp_ret ⟨rfl, rfl⟩

/-- What a request ends in: the store changes by the rules, or the working directory does. -/
def Answered (r : Rules) (s : Store) (g : Image) (pwd : PathT) (o : Option PathT) (t : Store × List Msg) : Prop :=
  (∃ g', Changes r s g t.1 g' ∧ Inv t.1 g') ∧ ∀ p, o = some p →
    p = pwd ∨ t.1 = s ∧ s.state p.id = some dOccupied ∧ ∃ path, NulFree path ∧ (s.lookup pwd path).1 = some p

theorem Answered.stay {t : Store × List Msg} (h : ∃ g', Changes r s g t.1 g' ∧ Inv t.1 g') :
    Answered r s g pwd (some pwd) t := ⟨h, fun _ hp => Or.inl (Option.some.inj hp).symm⟩

/-- How a request is answered: by a message, by the status of a command that keeps the rules, or by a command that only
    looks. -/
inductive Replies (P : Policy) (r : Rules) (s : Store) (g : Image) (pwd : PathT) : List Str → FsM (Option PathT) → Prop where
  | exit : Replies P r s g pwd [lit "exit"] (do
      sendMsg (lit "3")
      .ret none)
  | unknown {toks : List Str} : Replies P r s g pwd toks (do
      sendMsg (lit "-1")
      .ret (some pwd))
  | status {toks : List Str} {command : FsM Nat}
      (h : wp (storeSem P) command (fun _ s' => ∃ g', Changes r s g s' g' ∧ Inv s' g') s) :
      Replies P r s g pwd toks (status pwd command)
  | cd {a : Str} (ha : NulFree a) : Replies P r s g pwd [lit "cd", a] (do
      let c ← change pwd a
      reply c.1
      .ret (some c.2))
  | here : Replies P r s g pwd [lit "ls"] (do
      let _ ← list pwd (lit ".")
      .ret (some pwd))
  | ls {a : Str} (ha : NulFree a) : Replies P r s g pwd [lit "ls", a] (failure pwd (list pwd a))
  | cat {a : Str} (ha : NulFree a) : Replies P r s g pwd [lit "cat", a] (failure pwd (cat pwd a))

/-- `touch` and `mkdir` -/
theorem replies_create (n : Node) (make : Int → UInt64 → Zone) (hP : P.room = true) (hS : P.slots = true) (h : Inv s g)
    (hpwd : pwd.Below) {t a : Str} (ha : NulFree a) (ht : t = lit "touch" ∨ t = lit "mkdir") (hb : Blank n make)
    (hn : IsState n.state) (hf : Follows r s g pwd [t, a]) :
    Replies P r s g pwd [t, a] (create (mkNode n.state make) pwd a) := by
  refine .status ?_
  split
  · exact wp_ret.mpr ⟨g, .nil, h⟩
  · rename_i hshort
    have hlen : ∀ d name, s.insertion pwd a = some (d, name) → name.length ≤ 9 := fun d name hi => by
      have := length_insertion hi
      omega
    refine mkNode_spec hP hS h hpwd ha hb hn hlen (fun _ => ⟨g, .nil, h⟩) ?_
    intro d name id nd nd' new s' g' hi hins hinv
    refine ⟨g', .snoc .nil (.insert hins (hlen d name hi) ?_) hinv, hinv⟩
    refine hf.insert a d name nd (Or.inl ⟨?_, Nat.not_lt.mp hshort⟩) hi hins.dir
    rcases ht with rfl | rfl
    · exact Or.inl rfl
    · exact Or.inr rfl

/-- `rm` and `rmdir` -/
theorem replies_remove (rm : Int → FsM Unit) (ids : Int → Node → List Int) (hS : P.slots = true) (h : Inv s g)
    (hpwd : pwd.Below) {toks : List Str} {a : Str} (ha : NulFree a)
    (hrm : ∀ p n, (s.lookup pwd a).1 = some p → 4 ≤ p.id → g.node p.id = some n → Within p.id n (ids p.id n) ∧
      wp (storeSem P) (rm p.id) (fun _ s' => s.Frees (ids p.id n) s') s)
    (hremovable : ∀ p, (s.lookup pwd a).1 = some p → 4 ≤ p.id → s.Removable p.id)
    (herase : ∀ p n, (s.lookup pwd a).1 = some p → g.node p.id = some n → r.erase g p.id (ids p.id n)) :
    Replies P r s g pwd toks (status pwd do .ret (← rmNode rm pwd a).1) := by
  refine .status (wp_bind.mpr (rmNode_spec hS h hpwd ha hrm hremovable (fun _ => wp_ret.mpr ⟨g, .nil, h⟩) ?_))
  intro p n d e nd nd' s' g' hp hn heq her hinv
  exact wp_ret.mpr ⟨g', .snoc .nil (.erase her (heq ▸ herase p n hp hn)) hinv, hinv⟩

theorem interpret_replies (hP : P.room = true) (hS : P.slots = true) (h : Inv s g) (hpwd : pwd.Below) {toks : List Str}
    (htoks : ∀ t ∈ toks, NulFree t) (hlens : ∀ t ∈ toks, t.length < 2 ^ 15) (hsafe : Safe s pwd toks)
    (hf : Follows r s g pwd toks) : Replies P r s g pwd toks (interpret pwd toks) := by
  have hsame : ∃ g', Changes r s g s g' ∧ Inv s g' := ⟨g, .nil, h⟩
  rcases toks with _ | ⟨t, _ | ⟨a, _ | ⟨b, _ | ⟨c, toks⟩⟩⟩⟩
  · exact .unknown
  · show Replies P r s g pwd [t] (if t = lit "exit" then _ else if t = lit "ls" then _ else _)
    split
    · rename_i ht
      subst ht
      exact .exit
    split
    · rename_i ht
      subst ht
      exact .here
    · exact .unknown
  · have ha : NulFree a := htoks a (by simp)
    by_cases htouch : t = lit "touch"
    · subst htouch
      exact replies_create (.file []) newInode hP hS h hpwd ha (Or.inl rfl) blank_newInode isState_iOccupied hf
    by_cases hmkdir : t = lit "mkdir"
    · subst hmkdir
      exact replies_create (.dir [] []) newDentry hP hS h hpwd ha (Or.inr rfl) blank_newDentry isState_dOccupied hf
    by_cases hrm : t = lit "rm"
    · subst hrm
      have hok := hsafe.1 rfl
      refine replies_remove rmInode rmInodeIds hS h hpwd ha (fun p n hp h4 hn => h.rmFile_frees h4 (hok p hp) hn)
        (fun p hp h4 => ?_) fun p n hp hn => hf.rm a p n rfl hp hn
      exact ((hok p hp).resolve_left (by omega)).1
    by_cases hrmdir : t = lit "rmdir"
    · subst hrmdir
      have hok := hsafe.2 rfl
      refine replies_remove rmDentry rmDentryIds hS h hpwd ha (fun p n hp h4 hn => rmDir_frees h h4 (hok p hp) hn)
        (fun p hp h4 => ?_) fun p n hp hn => hf.rmdir a p n rfl hp hn
      exact ((hok p hp).resolve_left (by omega)).1
    have hrest : interpret pwd [t, a] = if t = lit "ls" then failure pwd (list pwd a)
        else if t = lit "cat" then failure pwd (cat pwd a)
        else if t = lit "cd" then (do
          let c ← change pwd a
          reply c.1
          .ret (some c.2))
        else (do
          sendMsg (lit "-1")
          .ret (some pwd)) := by
      unfold interpret
      dsimp only
      rw [if_neg htouch, if_neg hmkdir, if_neg hrm, if_neg hrmdir]
    rw [hrest]
    split
    · rename_i ht
      subst ht
      exact .ls ha
    split
    · rename_i ht
      subst ht
      exact .cat ha
    split
    · rename_i ht
      subst ht
      exact .cd ha
    · exact .unknown
  · have ha : NulFree a := htoks a (by simp)
    have hb : NulFree b := htoks b (by simp)
    by_cases hwrite : t = lit "write"
    · subst hwrite
      exact .status (wrt_spec hP hS h hpwd ha hb (hlens b (by simp)) (hsafe rfl) hf)
    by_cases happend : t = lit "append"
    · subst happend
      refine .status (append_spec hP hS h hpwd ha hb (hlens b (by simp)) (fun _ => hsame) (fun _ _ _ _ => hsame) ?_)
      exact fun p kids kids' new s' g' _ _ hext hinv => ⟨g', .snoc .nil (.extend hext) hinv, hinv⟩
    have hrest : interpret pwd [t, a, b] = (do
        sendMsg (lit "-1")
        .ret (some pwd)) := by
      unfold interpret
      dsimp only
      rw [if_neg hwrite, if_neg happend]
    rw [hrest]
    exact .unknown
  · exact .unknown

theorem interpret_spec (hP : P.room = true) (hS : P.slots = true) (h : Inv s g) (hpwd : pwd.Below) {toks : List Str}
    (htoks : ∀ t ∈ toks, NulFree t) (hlens : ∀ t ∈ toks, t.length < 2 ^ 15) (hsafe : Safe s pwd toks)
    (hf : Follows r s g pwd toks) : wlp (fsSem P) (interpret pwd toks) (Answered r s g pwd) (s, log) := by
  have hsame : ∃ g', Changes r s g s g' ∧ Inv s g' := ⟨g, .nil, h⟩
  have hmsg : ∀ (m : Str) (o : Option PathT), (∀ p, o = some p → p = pwd) →
      wlp (fsSem P) (do sendMsg m; .ret o) (Answered r s g pwd) (s, log) := fun m o ho =>
    wlp_of_wp (wp_bind.mpr (sendMsg_spec (wp_ret.mpr ⟨hsame, fun p hp => Or.inl (ho p hp)⟩)))
  have hfailure : ∀ command : FsM Nat, ReadOnly command →
      wlp (fsSem P) (failure pwd command) (Answered r s g pwd) (s, log) := fun command hc => by
    refine wlp_mono (failure_spec hc) ?_
    rintro o ⟨s', l⟩ ⟨rfl, rfl⟩
    exact .stay hsame
  have hreplies := interpret_replies hP hS h hpwd htoks hlens hsafe hf
  generalize interpret pwd toks = answer at hreplies ⊢
  cases hreplies with
  | exit => exact hmsg _ _ nofun
  | unknown => exact hmsg _ _ fun p hp => (Option.some.inj hp).symm
  | status hc =>
    refine wlp_mono (wlp_of_wp (status_spec hc)) ?_
    rintro o t ⟨rfl, n, hR, -⟩
    exact .stay hR
  | @cd a ha =>
    have hchange : wp (storeSem P) (change pwd a) (fun c s' => s' = s ∧ (c.2 = pwd ∨ s.state c.2.id = some dOccupied ∧
        (s.lookup pwd a).1 = some c.2)) s :=
      change_spec hS h hpwd ha ⟨rfl, Or.inl rfl⟩ fun p hp hdir => ⟨rfl, Or.inr ⟨hdir, hp⟩⟩
    refine wlp_of_wp (wp_seq (wp_fsSem hchange) ?_)
    rintro ⟨n, pwd'⟩ ⟨s', l⟩ ⟨rfl, rfl, hp⟩
    refine wp_bind.mpr (sendMsg_spec (wp_ret.mpr ⟨hsame, fun p hq => ?_⟩))
    cases hq
    rcases hp with heq | ⟨hdir, hp⟩
    · exact Or.inl heq
    · exact Or.inr ⟨rfl, hdir, a, ha, hp⟩
  | here =>
    refine wlp_seq (readOnly_list pwd (lit ".")).wlp ?_
    rintro n ⟨s', l⟩ rfl
    exact wlp_ret (.stay hsame)
  | ls ha => exact hfailure _ (readOnly_list _ _)
  | cat ha => exact hfailure _ (readOnly_cat _ _)

end

end MiniFs
