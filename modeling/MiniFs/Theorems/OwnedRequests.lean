import MiniFs.Theorems.Layers
import MiniFs.Theorems.Ownership

/-! # The commands and their nodes

Every command frees the nodes of the paths that it has resolved, and `cd` those of the working directory that it leaves.
Between two requests the nodes of the working directory are therefore the only ones, and a server with nodes does on every
request what it does with paths as values. -/

namespace MiniFs.Nodes
open Interact Memory

section
variable {q r : Option Ptr} {p pwd : PathT} {l l' k : List Nat} {w w' : Mem}

/-! ## The commands -/

/-- The nodes that are alive are those of the working directory and, beside them, those at `l`. -/
def Owns (w : Mem) (pwd : PathT) (l : List Nat) : Prop :=
  ∃ k, Chain w.heap w.pwd pwd k ∧ (∀ a ∈ k, a ∉ l) ∧ ∀ a, w.heap.cell a ≠ none → a ∈ k ∨ a ∈ l

theorem Owns.swap (hw : Owns w pwd l) (hs : w.heap.Swap l w'.heap l') (hpwd : w'.pwd = w.pwd) : Owns w' pwd l' := by
  obtain ⟨k, hc, hd, hall⟩ := hw
  obtain ⟨hc', hd'⟩ := hc.frame hs hd
  refine ⟨k, hpwd ▸ hc', hd', fun a ha => ?_⟩
  by_cases hl' : a ∈ l'
  · exact Or.inr hl'
  · have hl : a ∉ l := fun hl => ha (hs.gone a hl hl')
    rw [hs.kept a hl hl'] at ha
    exact Or.inl ((hall a ha).resolve_right hl)

/-- `free_path` of what is not part of the working directory. -/
theorem Owns.freed (hw : Owns w pwd l) (hc : Chain w.heap q p l) : ∃ w', freePath q w = .ret ((), w') ∧ Owns w' pwd [] := by
  obtain ⟨w', hr, hpwd, hs⟩ := freePath_ret hc
  exact ⟨w', hr, hw.swap hs hpwd⟩

/-- What `get_path` answers: the nodes of its result belong to the caller. -/
def Found (pwd : PathT) (r : Option Ptr × Str) (w : Mem) (r' : Option PathT × Str) : Prop :=
  r.2 = r'.2 ∧ ∃ l, Got w.heap r.1 l r'.1 ∧ Owns w pwd l

theorem tracks_getPath (hw : Owns w pwd []) (path : Str) :
    Tracks (Nodes.getPath path) (MiniFs.getPath pwd path) w (Found pwd) := by
  have hfound : ∀ r w' r', Gets w [] r w' r' → Found pwd r w' r' := fun r w' r' ⟨hstr, hpwd, l, hgot, hs⟩ =>
    ⟨hstr, l, hgot, hw.swap hs hpwd⟩
  obtain ⟨k, hc, -⟩ := hw
  cases path with
  | nil => exact .step rfl ((tracks_getPathFromPwd 2 hc []).mono hfound)
  | cons c rest =>
    unfold Nodes.getPath MiniFs.getPath
    dsimp only
    refine .ite (fun _ => ?_) fun _ => ?_
    · refine (tracks_getPathFromRoot _ (.root : Chain w.heap _ _ _) rest).seq fun r w' r' hr => .ret (hfound _ _ _ ?_)
      obtain ⟨hstr, hpwd, hgot⟩ := hr
      exact ⟨congrArg _ hstr, hpwd, hgot⟩
    · exact .step rfl ((tracks_getPathFromPwd _ hc _).mono hfound)

/-- The command answers the same, and frees what it has allocated. -/
def Answers {α : Type} (pwd : PathT) (a : α) (w : Mem) (a' : α) : Prop := a = a' ∧ Owns w pwd []

theorem tracks_ret {α : Type} {a : α} (hw : Owns w pwd []) : Tracks (pure a : NodeM α) (.ret a) w (Answers pwd) :=
  .ret ⟨rfl, hw⟩

theorem tracks_freeRet {α : Type} {a : α} (hw : Owns w pwd l) (hc : Chain w.heap q p l) :
    Tracks (do freePath q; pure a : NodeM α) (.ret a) w (Answers pwd) := by
  obtain ⟨w', hfree, hw'⟩ := hw.freed hc
  exact .step hfree (tracks_ret hw')

theorem tracks_mkNode (hw : Owns w pwd []) (state : Byte) (make : Int → UInt64 → Zone) (pathStr : Str) :
    Tracks (Nodes.mkNode state make pathStr) (MiniFs.mkNode state make pwd pathStr) w (Answers pwd) := by
  unfold Nodes.mkNode MiniFs.mkNode
  refine (tracks_getPath hw pathStr).seq fun (r, cut) w₁ (o, cut') hr => ?_
  obtain ⟨hcut, l, hgot, hw₁⟩ := hr
  obtain rfl : cut = cut' := hcut
  cases o with
  | some p =>
    dsimp only
    rw [if_pos (Chain.ne_none hgot)]
    exact tracks_freeRet hw₁ hgot
  | none =>
    obtain ⟨rfl, rfl⟩ := hgot
    dsimp only
    rw [if_neg (not_not.mpr rfl)]
    refine .lift fun (name, rest) => (tracks_getPath hw₁ rest).seq fun (r, _) w₂ (o, _) hr => ?_
    obtain ⟨-, l, hgot, hw₂⟩ := hr
    cases o with
    | none =>
      obtain ⟨rfl, rfl⟩ := hgot
      exact tracks_ret hw₂
    | some p =>
      have hc : Chain w₂.heap r p l := hgot
      obtain ⟨n, hderef, hid, -⟩ := hc.deref
      dsimp only
      rw [if_neg hc.ne_none]
      refine .step hderef ?_
      rw [hid]
      refine .lift fun state' => ?_
      refine .ite (fun _ => ?_) fun _ => ?_
      · exact tracks_freeRet hw₂ hc
      refine .lift fun id => ?_
      refine .ite (fun _ => ?_) fun _ => ?_
      · exact tracks_freeRet hw₂ hc
      refine .lift fun now => .step hderef ?_
      rw [hid]
      refine .lift fun _ => .step hderef ?_
      rw [hid]
      exact .lift fun _ => tracks_freeRet hw₂ hc

theorem tracks_rmNode (hw : Owns w pwd []) (rm : Int → FsM Unit) (pathStr : Str) :
    Tracks (Nodes.rmNode rm pathStr) (MiniFs.rmNode rm pwd pathStr) w (Answers pwd) := by
  unfold Nodes.rmNode MiniFs.rmNode
  refine (tracks_getPath hw pathStr).seq fun (r, cut) w₁ (o, cut') hr => ?_
  obtain ⟨hcut, l, hgot, hw₁⟩ := hr
  obtain rfl : cut = cut' := hcut
  cases o with
  | none =>
    obtain ⟨rfl, rfl⟩ := hgot
    exact tracks_ret hw₁
  | some p =>
    have hc : Chain w₁.heap r p l := hgot
    obtain ⟨n, hderef, hid, -⟩ := hc.deref
    dsimp only
    rw [if_neg hc.ne_none]
    refine .step hderef ?_
    rw [hid]
    refine .lift fun z => ?_
    cases z with
    | none => exact tracks_freeRet hw₁ hc
    | some zone =>
      refine .step hderef ?_
      rw [hid]
      refine .lift fun _ => .step hderef ?_
      rw [hid]
      exact .lift fun _ => tracks_freeRet hw₁ hc

theorem tracks_list (hw : Owns w pwd []) (pathStr : Str) :
    Tracks (Nodes.list pathStr) (MiniFs.list pwd pathStr) w (Answers pwd) := by
  unfold Nodes.list MiniFs.list
  refine (tracks_getPath hw pathStr).seq fun (r, _) w₁ (o, _) hr => ?_
  obtain ⟨-, l, hgot, hw₁⟩ := hr
  cases o with
  | none =>
    obtain ⟨rfl, rfl⟩ := hgot
    exact tracks_ret hw₁
  | some p =>
    have hc : Chain w₁.heap r p l := hgot
    obtain ⟨n, hderef, hid, -⟩ := hc.deref
    obtain ⟨w₂, hfree, hw₂⟩ := hw₁.freed hc
    dsimp only
    rw [if_neg hc.ne_none]
    refine .step hderef (.step hfree (.lift fun _ => .lift fun msg => ?_))
    rw [hid]
    refine .ite (fun _ => ?_) fun _ => ?_
    · refine .lift fun len => .lift fun str => .lift fun _ => .lift fun state => ?_
      refine .ite (fun _ => ?_) fun _ => ?_
      · exact .lift fun _ => tracks_ret hw₂
      refine .ite (fun _ => ?_) fun _ => ?_
      · exact .lift fun _ => tracks_ret hw₂
      · exact .lift fun _ => tracks_ret hw₂
    · exact tracks_ret hw₂

theorem tracks_cat (hw : Owns w pwd []) (filePath : Str) :
    Tracks (Nodes.cat filePath) (MiniFs.cat pwd filePath) w (Answers pwd) := by
  unfold Nodes.cat MiniFs.cat
  refine (tracks_getPath hw filePath).seq fun (r, _) w₁ (o, _) hr => ?_
  obtain ⟨-, l, hgot, hw₁⟩ := hr
  cases o with
  | none =>
    obtain ⟨rfl, rfl⟩ := hgot
    exact tracks_ret hw₁
  | some p =>
    have hc : Chain w₁.heap r p l := hgot
    obtain ⟨n, hderef, hid, -⟩ := hc.deref
    obtain ⟨w₂, hfree, hw₂⟩ := hw₁.freed hc
    dsimp only
    rw [if_neg hc.ne_none]
    refine .step hderef (.step hfree ?_)
    rw [hid]
    refine .lift fun state => ?_
    refine .ite (fun _ => ?_) fun _ => ?_
    · refine .lift fun z => ?_
      cases z with
      | none => exact tracks_ret hw₂
      | some zone =>
        refine .lift fun _ => .lift fun msg => ?_
        refine .ite (fun _ => ?_) fun _ => ?_
        · exact .lift fun str => .lift fun _ => .lift fun _ => tracks_ret hw₂
        · exact tracks_ret hw₂
    · exact tracks_ret hw₂

theorem tracks_append (hw : Owns w pwd []) (filePath str : Str) :
    Tracks (Nodes.append filePath str) (MiniFs.append pwd filePath str) w (Answers pwd) := by
  unfold Nodes.append MiniFs.append
  refine (tracks_getPath hw filePath).seq fun (r, _) w₁ (o, _) hr => ?_
  obtain ⟨-, l, hgot, hw₁⟩ := hr
  cases o with
  | none =>
    obtain ⟨rfl, rfl⟩ := hgot
    exact tracks_ret hw₁
  | some p =>
    have hc : Chain w₁.heap r p l := hgot
    obtain ⟨n, hderef, hid, -⟩ := hc.deref
    obtain ⟨w₂, hfree, hw₂⟩ := hw₁.freed hc
    dsimp only
    rw [if_neg hc.ne_none]
    refine .step hderef ?_
    rw [hid]
    refine .lift fun state => ?_
    refine .ite (fun _ => ?_) fun _ => ?_
    · exact tracks_freeRet hw₁ hc
    refine .step hderef ?_
    rw [hid]
    refine .lift fun z => .step hfree ?_
    cases z with
    | none => exact tracks_ret hw₂
    | some inode =>
      dsimp only
      refine .ite (fun _ => ?_) fun _ => ?_
      · exact .lift fun _ => .lift fun _ => tracks_ret hw₂
      · exact tracks_ret hw₂

theorem tracks_wrtNew (hw : Owns w pwd []) (copy filePath str : Str) :
    Tracks (Nodes.wrtNew copy filePath str) (MiniFs.wrtNew pwd copy filePath str) w (Answers pwd) := by
  unfold Nodes.wrtNew MiniFs.wrtNew
  refine (tracks_mkNode hw _ _ _).seq fun s w₁ s' hs => ?_
  obtain ⟨rfl, hw₁⟩ := hs
  refine .ite (fun _ => ?_) fun _ => ?_
  · exact tracks_append hw₁ _ _
  · exact tracks_ret hw₁

theorem tracks_wrt (hw : Owns w pwd []) (filePath str : Str) :
    Tracks (Nodes.wrt filePath str) (MiniFs.wrt pwd filePath str) w (Answers pwd) := by
  unfold Nodes.wrt MiniFs.wrt
  refine .lift fun copy => (tracks_getPath hw filePath).seq fun (r, cut) w₁ (o, cut') hr => ?_
  obtain ⟨hcut, l, hgot, hw₁⟩ := hr
  obtain rfl : cut = cut' := hcut
  cases o with
  | none =>
    obtain ⟨rfl, rfl⟩ := hgot
    exact tracks_wrtNew hw₁ _ _ _
  | some p =>
    have hc : Chain w₁.heap r p l := hgot
    obtain ⟨n, hderef, hid, -⟩ := hc.deref
    obtain ⟨w₂, hfree, hw₂⟩ := hw₁.freed hc
    dsimp only
    rw [if_neg hc.ne_none]
    refine .step hderef (.step hfree ?_)
    rw [hid]
    refine .lift fun state => ?_
    refine .ite (fun _ => ?_) fun _ => ?_
    · refine (tracks_rmNode hw₂ _ _).seq fun x w₃ x' hx => ?_
      obtain ⟨rfl, hw₃⟩ := hx
      exact tracks_wrtNew hw₃ _ _ _
    · exact tracks_ret hw₂

/-- The new working directory takes the place of the old one, whose nodes are freed. -/
theorem Owns.cwdTo (hw : Owns w pwd l) (hc : Chain w.heap q p l) : ∃ w', cwdTo q w = .ret ((), w') ∧ Owns w' p [] := by
  obtain ⟨k, hk, hd, hall⟩ := hw
  obtain ⟨w', hr, -, hs⟩ := freePath_ret hk
  obtain ⟨hc', -⟩ := hc.frame hs fun a ha hak => hd a hak ha
  refine ⟨{ w' with pwd := q }, ?_, l, hc', fun _ _ => List.not_mem_nil, fun a ha => Or.inl ?_⟩
  · unfold Nodes.cwdTo
    rw [bind_of_ret (show getPwd w = .ret (w.pwd, w) from rfl), bind_of_ret hr]
    rfl
  · have hak : a ∉ k := fun hak => ha (hs.gone a hak List.not_mem_nil)
    rw [hs.kept a hak List.not_mem_nil] at ha
    exact (hall a ha).resolve_left hak

theorem tracks_change (hw : Owns w pwd []) (dirPath : Str) :
    Tracks (Nodes.change dirPath) (MiniFs.change pwd dirPath) w fun s w' r => s = r.1 ∧ Owns w' r.2 [] := by
  unfold Nodes.change MiniFs.change
  refine (tracks_getPath hw dirPath).seq fun (r, _) w₁ (o, _) hr => ?_
  obtain ⟨-, l, hgot, hw₁⟩ := hr
  cases o with
  | none =>
    obtain ⟨rfl, rfl⟩ := hgot
    exact .ret ⟨rfl, hw₁⟩
  | some p =>
    have hc : Chain w₁.heap r p l := hgot
    obtain ⟨n, hderef, hid, -⟩ := hc.deref
    dsimp only
    rw [if_neg hc.ne_none]
    refine .step hderef ?_
    rw [hid]
    refine .lift fun state => ?_
    refine .ite (fun _ => ?_) fun _ => ?_
    · obtain ⟨w₂, hfree, hw₂⟩ := hw₁.freed hc
      exact .step hfree (.ret ⟨rfl, hw₂⟩)
    · obtain ⟨w₂, hcwd, hw₂⟩ := hw₁.cwdTo hc
      exact .step hcwd (.ret ⟨rfl, hw₂⟩)

/-! ## Requests -/

/-- After a request: the server goes on where it does with paths as values, in the same working directory. -/
def Goes (go : Bool) (w : Mem) (o : Option PathT) : Prop :=
  match o with
  | none => go = false
  | some pwd => go = true ∧ Owns w pwd []

theorem tracks_status {command : NodeM Nat} {command' : FsM Nat} (h : Tracks command command' w (Answers pwd)) :
    Tracks (Nodes.status command) (MiniFs.status pwd command') w Goes := by
  refine h.seq fun s w' s' hs => ?_
  obtain ⟨rfl, hw'⟩ := hs
  exact .lift fun _ => .ret ⟨rfl, hw'⟩

theorem tracks_failure {command : NodeM Nat} {command' : FsM Nat} (h : Tracks command command' w (Answers pwd)) :
    Tracks (Nodes.failure command) (MiniFs.failure pwd command') w Goes := by
  refine h.seq fun s w' s' hs => ?_
  obtain ⟨rfl, hw'⟩ := hs
  refine .ite (fun _ => ?_) fun _ => ?_
  · exact .lift fun _ => .ret ⟨rfl, hw'⟩
  · exact .ret ⟨rfl, hw'⟩

theorem tracks_create (hw : Owns w pwd []) (state : Byte) (make : Int → UInt64 → Zone) (path : Str) :
    Tracks (Nodes.create (Nodes.mkNode state make) path) (MiniFs.create (MiniFs.mkNode state make) pwd path) w Goes := by
  refine tracks_status ?_
  split
  · exact tracks_ret hw
  · exact tracks_mkNode hw _ _ _

theorem tracks_rmStatus (hw : Owns w pwd []) (rm : Int → FsM Unit) (path : Str) :
    Tracks (Nodes.status do pure (← Nodes.rmNode rm path).1)
      (MiniFs.status pwd do .ret (← MiniFs.rmNode rm pwd path).1) w Goes := by
  refine tracks_status ((tracks_rmNode hw rm path).seq fun x w' x' hx => ?_)
  obtain ⟨rfl, hw'⟩ := hx
  exact tracks_ret hw'

theorem tracks_unknown (hw : Owns w pwd []) : Tracks unknown (sendMsg (lit "-1") >>= fun _ => .ret (some pwd)) w Goes :=
  .lift fun _ => .ret ⟨rfl, hw⟩

/-- On every request the server with nodes does what it does with paths as values. -/
theorem tracks_interpret (hw : Owns w pwd []) (tokens : List Str) :
    Tracks (Nodes.interpret tokens) (MiniFs.interpret pwd tokens) w Goes := by
  rcases tokens with _ | ⟨t, _ | ⟨a, _ | ⟨b, _ | ⟨c, rest⟩⟩⟩⟩
  · exact tracks_unknown hw
  · refine .ite (fun _ => .lift fun _ => .ret rfl) fun _ => .ite (fun _ => ?_) fun _ => tracks_unknown hw
    refine (tracks_list hw _).seq fun s w' s' hs => ?_
    obtain ⟨-, hw'⟩ := hs
    exact .ret ⟨rfl, hw'⟩
  · refine .ite (fun _ => tracks_create hw _ _ _) fun _ => .ite (fun _ => tracks_create hw _ _ _) fun _ =>
      .ite (fun _ => tracks_rmStatus hw _ _) fun _ => .ite (fun _ => tracks_rmStatus hw _ _) fun _ =>
      .ite (fun _ => tracks_failure (tracks_list hw _)) fun _ => .ite (fun _ => tracks_failure (tracks_cat hw _)) fun _ =>
      .ite (fun _ => ?_) fun _ => tracks_unknown hw
    refine (tracks_change hw a).seq fun s w' (s', pwd') hs => ?_
    obtain ⟨rfl, hw'⟩ := hs
    exact .lift fun _ => .ret ⟨rfl, hw'⟩
  · exact .ite (fun _ => tracks_status (tracks_wrt hw _ _)) fun _ =>
      .ite (fun _ => tracks_status (tracks_append hw _ _)) fun _ => tracks_unknown hw
  · exact tracks_unknown hw

/-- The memory after `path_init`, and the addresses that `calloc` is to take. -/
def Mem.start (wishes : Nat → Nat) : Mem := ⟨.empty, some .rootDir, wishes⟩

theorem owns_start (wishes : Nat → Nat) : Owns (.start wishes) .root [] :=
  ⟨[], .root, nofun, fun _ ha => absurd rfl ha⟩

/-- The requests that the server with nodes has answered, with the messages that it has sent for each, up to the memory and
    the state that it is in now. -/
inductive Served {σ : Type} (X : Sem fsSig σ) (w₀ : Mem) (u₀ : σ) : List (Str × List Msg) → Mem → σ → Prop where
  | start : Served X w₀ u₀ [] w₀ u₀
  | request {log : List (Str × List Msg)} {w w' : Mem} {u u' : σ} {req : Str} {sent : List Msg}
      (h : Served X w₀ u₀ log w u) (nul : NulFree req) (short : req.length < 127)
      (run : Runs (clientSem X) (Nodes.interpret (toks req 6) w) (u, []) (some ((true, w'), (u', sent)))) :
      Served X w₀ u₀ (log ++ [(req, sent)]) w' u'

section
variable {σ : Type} {X : Sem fsSig σ} {u u₀ : σ} {log : List (Str × List Msg)} {wishes : Nat → Nat}

theorem Served.requested (h : Served X (.start wishes) u₀ log w u) : ∃ pwd, Requested X u₀ log pwd u ∧ Owns w pwd [] := by
  induction h with
  | start => exact ⟨.root, .start, owns_start wishes⟩
  | @request log w w' u u' req sent h nul short run ih =>
    obtain ⟨pwd, hreq, hw⟩ := ih
    rcases (tracks_interpret hw (toks req 6)).runs run with ⟨heq, -⟩ | ⟨⟨go, w₁⟩, o, t, heq, hgoes, hrun⟩
    · cases heq
    · cases heq
      cases o with
      | none => cases (show true = false from hgoes)
      | some pwd' => exact ⟨pwd', hreq.request nul short hrun, hgoes.2⟩

theorem served_of_requested {pwd : PathT} (wishes : Nat → Nat) (h : Requested X u₀ log pwd u) :
    ∃ w, Served X (.start wishes) u₀ log w u ∧ Owns w pwd [] := by
  induction h with
  | start => exact ⟨_, .start, owns_start wishes⟩
  | @request log pwd pwd' u u' req sent h nul short run ih =>
    obtain ⟨w, hserved, hw⟩ := ih
    rcases (tracks_interpret hw (toks req 6)).symm.runs run with ⟨heq, -⟩ | ⟨o, ⟨go, w'⟩, t, heq, hgoes, hrun⟩
    · cases heq
    · cases heq
      obtain ⟨hgo, hw'⟩ : go = true ∧ Owns w' pwd' [] := hgoes
      subst hgo
      exact ⟨w', hserved.request nul short hrun, hw'⟩

/-- Whatever addresses `calloc` takes, the server with nodes answers requests as the one with paths as values does: the same
    messages, the same working directory, the same state. -/
theorem nodes_as_values (X : Sem fsSig σ) (wishes : Nat → Nat) (u₀ : σ) (log : List (Str × List Msg)) (pwd : PathT) (u : σ) :
    Requested X u₀ log pwd u ↔ ∃ w k, Served X (.start wishes) u₀ log w u ∧ Chain w.heap w.pwd pwd k := by
  constructor
  · intro h
    obtain ⟨w, hserved, k, hc, -⟩ := served_of_requested wishes h
    exact ⟨w, k, hserved, hc⟩
  · rintro ⟨w, k, hserved, hc⟩
    obtain ⟨pwd', hreq, k', hc', -⟩ := hserved.requested
    rwa [hc'.path_eq hc]

/-- After each request the nodes that are alive are those of the working directory, one for each directory below the root:
    none is leaked. And on no request does the server use a node that is not alive or free one twice, where it would not
    have failed with paths as values. -/
theorem nodes_owned (X : Sem fsSig σ) (wishes : Nat → Nat) (u₀ : σ) (log : List (Str × List Msg)) (w : Mem) (u : σ)
    (h : Served X (.start wishes) u₀ log w u) : ∃ pwd k, Chain w.heap w.pwd pwd k ∧ k.length + 1 = pwd.ids.length ∧
      (∀ a, w.heap.cell a ≠ none ↔ a ∈ k) ∧ ∀ req, Runs (clientSem X) (Nodes.interpret (toks req 6) w) (u, []) none →
        Runs (clientSem X) (MiniFs.interpret pwd (toks req 6)) (u, []) none := by
  obtain ⟨pwd, -, hw⟩ := h.requested
  have ⟨k, hc, _, hall⟩ := hw
  refine ⟨pwd, k, hc, hc.length, fun a => ⟨fun ha => (hall a ha).resolve_right List.not_mem_nil, hc.live a⟩, fun req hr => ?_⟩
  rcases (tracks_interpret hw (toks req 6)).runs hr with ⟨-, hn⟩ | ⟨_, _, _, heq, -⟩
  · exact hn
  · cases heq

/-- In the directory `d` one node is alive. -/
theorem nodes_owned_cd : ∃ (w : Mem) (pwd : PathT) (k : List Nat), pwd.ids = [5, 4] ∧ Chain w.heap w.pwd pwd k ∧
    k.length = 1 ∧ ∀ a, w.heap.cell a ≠ none ↔ a ∈ k := by
  have hdec : (answerAll [lit "mkdir d", lit "cd d", lit "touch a"] .root emptyDisk).map (fun r => r.2.1.ids) =
      some [5, 4] := by decide +kernel
  obtain ⟨⟨log, pwd, s⟩, hanswer, hids⟩ := Option.map_eq_some_iff.mp hdec
  have hreq : Requested (storeSem .all) emptyDisk log pwd s := .answerAll (by decide) hanswer
  obtain ⟨w, hserved, k₀, hc₀, -⟩ := served_of_requested (fun _ => 0) hreq
  obtain ⟨pwd', k, hc, hlen, hlive, -⟩ := nodes_owned _ _ _ _ w _ hserved
  obtain rfl := hc.path_eq hc₀
  refine ⟨w, pwd, k, hids, hc, ?_, hlive⟩
  have htwo : pwd.ids.length = 2 := congrArg List.length hids
  omega

end

end

end MiniFs.Nodes
