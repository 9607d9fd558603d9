import MiniFs.Nodes
import MiniFs.Lib.Lockstep
import MiniFs.Theorems.Lookup

/-! # Who owns the nodes

Each function of path.c that returns a path hands over its nodes, and `get_path_from_root` and `free_path` take over those
of their argument; `get_path_from_pwd` leaves the nodes of the working directory alone. -/

namespace MiniFs.Nodes
open Interact Memory

section
variable {h h' : Heap Node} {q r : Option Ptr} {p pwd : PathT} {l l' k k' : List Nat} {a : Nat} {w w' : Mem} {fuel : Nat}

/-! ## Chains of nodes -/

/-- The nodes at `l` are those of the path `p`, from its end to the root. -/
inductive Chain (h : Heap Node) : Option Ptr → PathT → List Nat → Prop where
  | root : Chain h (some .rootDir) .root []
  | node {a : Nat} {id : Int} {q : Option Ptr} {p : PathT} {l : List Nat} (live : h.cell a = some ⟨id, q⟩) (fresh : a ∉ l)
      (prev : Chain h q p l) : Chain h (some (.node a)) (.node id p) (a :: l)

theorem Chain.live (hc : Chain h q p l) : ∀ a ∈ l, h.cell a ≠ none := by
  induction hc with
  | root => nofun
  | node live _ _ ih =>
    intro b hb
    rcases List.mem_cons.mp hb with rfl | hb
    · rw [live]
      exact Option.some_ne_none _
    · exact ih b hb

theorem Chain.nodup (hc : Chain h q p l) : l.Nodup := by
  induction hc with
  | root => exact List.nodup_nil
  | node _ fresh _ ih => exact List.nodup_cons.mpr ⟨fresh, ih⟩

theorem Chain.length_lt (hc : Chain h q p l) : l.length < h.limit + 1 :=
  Nat.lt_succ_of_le (Heap.length_le_limit hc.nodup hc.live)

theorem Chain.ne_none (hc : Chain h q p l) : q ≠ none := by
  cases hc <;> exact Option.some_ne_none _

theorem Chain.path_eq (hc : Chain h q p l) (hc' : Chain h q pwd k) : pwd = p := by
  induction hc generalizing pwd k with
  | root =>
    cases hc'
    rfl
  | node live _ _ ih =>
    cases hc' with
    | node live' _ prev' =>
      rw [live] at live'
      cases live'
      rw [ih prev']

theorem Chain.length (hc : Chain h q p l) : l.length + 1 = p.ids.length := by
  induction hc with
  | root => rfl
  | node _ _ _ ih => simpa [PathT.ids] using ih

/-- A path stays what it is while nodes of others are exchanged. -/
theorem Chain.frame (hc : Chain h q p l) (hs : h.Swap k h' k') (hd : ∀ a ∈ l, a ∉ k) :
    Chain h' q p l ∧ ∀ a ∈ l, a ∉ k' := by
  induction hc with
  | root => exact ⟨.root, nofun⟩
  | node live fresh _ ih =>
    obtain ⟨hprev, hk'⟩ := ih fun b hb => hd b (List.mem_cons_of_mem _ hb)
    obtain ⟨ha, hcell⟩ := hs.cell live (hd _ List.mem_cons_self)
    refine ⟨.node hcell fresh hprev, fun b hb => ?_⟩
    rcases List.mem_cons.mp hb with rfl | hb
    · exact ha
    · exact hk' b hb

/-! ## Reading, copying and freeing a path -/

theorem Chain.deref (hc : Chain w.heap q p l) : ∃ n, Nodes.deref q w = .ret (n, w) ∧ n.id = p.id ∧
    (p.prev = none → n.prev = none) ∧
      ∀ p', p.prev = some p' → ∃ a l', l = a :: l' ∧ q = some (.node a) ∧ Chain w.heap n.prev p' l' := by
  generalize hw : w.heap = h at hc
  cases hc with
  | root => exact ⟨⟨4, none⟩, rfl, rfl, fun _ => rfl, nofun⟩
  | @node a id q p l live fresh prev =>
    refine ⟨⟨id, q⟩, ?_, rfl, nofun, fun p' hp' => ?_⟩
    · unfold Nodes.deref
      dsimp only
      rw [hw, live]
    · cases hp'
      exact ⟨a, l, rfl, rfl, prev⟩

theorem Chain.head (hc : Chain h (some (.node a)) p (a :: l)) : a ∉ l ∧ ∃ n, h.cell a = some n := by
  cases hc with
  | node live fresh _ => exact ⟨fresh, _, live⟩

theorem free_ret {n : Node} (ha : w.heap.cell a = some n) :
    free (some (.node a)) w = .ret ((), { w with heap := w.heap.free a }) := by
  unfold free
  dsimp only
  rw [ha]

theorem assign_ret {n : Node} {f : Node → Node} (ha : w.heap.cell a = some n) :
    assign a f w = .ret ((), { w with heap := w.heap.put a (f n) }) := by
  unfold assign
  rw [ha]

theorem freePathFrom_ret (hc : Chain w.heap q p l) (hl : l.length < fuel) :
    ∃ w', freePathFrom fuel q w = .ret ((), w') ∧ w'.pwd = w.pwd ∧ w.heap.Swap l w'.heap [] := by
  generalize hw : w.heap = h at hc
  induction hc generalizing fuel with
  | root =>
    obtain ⟨f, rfl⟩ : ∃ f, fuel = f + 1 := ⟨fuel - 1, by omega⟩
    subst hw
    exact ⟨w, rfl, rfl, .refl _ _⟩
  | @node a id q p l live fresh prev ih =>
    obtain ⟨f, rfl⟩ : ∃ f, fuel = f + 1 := ⟨fuel - 1, by omega⟩
    subst hw
    obtain ⟨w₁, hr, hpwd, hs⟩ := @ih f (by simpa using hl)
    obtain ⟨-, hcell⟩ := hs.cell live fresh
    refine ⟨{ w₁ with heap := w₁.heap.free a }, ?_, hpwd, (hs.frame [a]).trans (Heap.swap_free _ a)⟩
    have hderef : deref (some (.node a)) w = .ret (⟨id, q⟩, w) := by
      unfold deref
      dsimp only
      rw [live]
    unfold freePathFrom
    rw [if_neg nofun, bind_of_ret hderef, bind_of_ret hr]
    exact free_ret hcell

/-- `free_path` frees the nodes of the path and no others. -/
theorem freePath_ret (hc : Chain w.heap q p l) :
    ∃ w', freePath q w = .ret ((), w') ∧ w'.pwd = w.pwd ∧ w.heap.Swap l w'.heap [] :=
  freePathFrom_ret hc hc.length_lt

theorem calloc_ret (w : Mem) : ∃ a w', calloc w = .ret (a, w') ∧ w'.pwd = w.pwd ∧ w'.heap.cell a = some ⟨0, none⟩ ∧
    w.heap.Swap [] w'.heap [a] :=
  ⟨_, _, rfl, rfl, Heap.cell_put_self _ _ _, Heap.swap_come (Heap.cell_pick _ _) _⟩

theorem pathCloneFrom_ret (hc : Chain w.heap q p l) (hl : l.length < fuel) :
    ∃ r w' l', pathCloneFrom fuel q w = .ret (r, w') ∧ w'.pwd = w.pwd ∧ w.heap.Swap [] w'.heap l' ∧ Chain w'.heap r p l' := by
  induction p generalizing fuel w q l with
  | root =>
    obtain ⟨f, rfl⟩ : ∃ f, fuel = f + 1 := ⟨fuel - 1, by omega⟩
    cases hc
    exact ⟨_, w, [], rfl, rfl, .refl _ _, .root⟩
  | node id p ih =>
    obtain ⟨f, rfl⟩ : ∃ f, fuel = f + 1 := ⟨fuel - 1, by omega⟩
    cases hc with
    | @node b _ q _ l live fresh prev =>
    obtain ⟨a, w₁, hcalloc, hpwd₁, hcell₁, hs₁⟩ := calloc_ret w
    obtain ⟨hprev₁, -⟩ := prev.frame hs₁ fun _ _ => List.not_mem_nil
    obtain ⟨-, hlive₁⟩ := hs₁.cell live List.not_mem_nil
    have hderef : deref (some (.node b)) w₁ = .ret (⟨id, q⟩, w₁) := by
      unfold deref
      dsimp only
      rw [hlive₁]
    -- The new node with its id.
    have hid := assign_ret (f := fun n => { n with id := id }) hcell₁
    have hs₂ := hs₁.trans (Heap.swap_put w₁.heap ⟨id, none⟩ List.mem_cons_self)
    obtain ⟨hprev₂, -⟩ := prev.frame hs₂ fun _ _ => List.not_mem_nil
    obtain ⟨r, w₃, l', hrec, hpwd₃, hs₃, hr⟩ :=
      @ih q l { w₁ with heap := w₁.heap.put a ⟨id, none⟩ } f hprev₂ (by simpa using hl)
    obtain ⟨ha, hcell₃⟩ := hs₃.cell (Heap.cell_put_self w₁.heap a ⟨id, none⟩) List.not_mem_nil
    have hassign := assign_ret (f := fun n => { n with prev := r }) hcell₃
    obtain ⟨hr₄, -⟩ := hr.frame (Heap.swap_put w₃.heap ⟨id, r⟩ (List.mem_singleton_self a)) fun b hb hmem =>
      ha (List.mem_singleton.mp hmem ▸ hb)
    refine ⟨some (.node a), { w₃ with heap := w₃.heap.put a ⟨id, r⟩ }, a :: l', ?_, hpwd₃.trans hpwd₁, ?_,
      .node (Heap.cell_put_self _ _ _) ha hr₄⟩
    · unfold pathCloneFrom
      rw [if_neg nofun, bind_of_ret hcalloc, bind_of_ret hderef, bind_of_ret hid, bind_of_ret hrec, bind_of_ret hassign]
      rfl
    · exact hs₂.trans ((hs₃.frame [a]).trans (Heap.swap_put w₃.heap ⟨id, r⟩ List.mem_cons_self))

/-- `path_clone` makes new nodes for the same path. -/
theorem pathClone_ret (hc : Chain w.heap q p l) :
    ∃ r w' l', pathClone q w = .ret (r, w') ∧ w'.pwd = w.pwd ∧ w.heap.Swap [] w'.heap l' ∧ Chain w'.heap r p l' :=
  pathCloneFrom_ret hc hc.length_lt

/-! ## Resolving a path -/

/-- `r` is the path `o` with its nodes at `l`, or null where there is none. -/
def Got (h : Heap Node) (r : Option Ptr) (l : List Nat) : Option PathT → Prop
  | none => r = none ∧ l = []
  | some p => Chain h r p l

/-- In exchange for the nodes at `l` the result of `get_path` has been made. -/
def Gets (w : Mem) (l : List Nat) (r : Option Ptr × Str) (w' : Mem) (r' : Option PathT × Str) : Prop :=
  r.2 = r'.2 ∧ w'.pwd = w.pwd ∧ ∃ l', Got w'.heap r.1 l' r'.1 ∧ w.heap.Swap l w'.heap l'

/-- The path is freed, and the result is null. -/
theorem tracks_drop {str : Str} (hc : Chain w.heap q p l) :
    Tracks (do freePath q; pure (none, str)) (.ret (none, str)) w (Gets w l) := by
  obtain ⟨w', hfree, hpwd, hs⟩ := freePath_ret hc
  exact .step hfree (.ret ⟨rfl, hpwd, [], ⟨rfl, rfl⟩, hs⟩)

theorem tracks_getSubPath (hc : Chain w.heap q p l) (name : Str) :
    Tracks (Nodes.getSubPath q name) (MiniFs.getSubPath p name) w fun r w' o =>
      w'.pwd = w.pwd ∧ match o with
        | none => r = none ∧ w' = w
        | some sub => ∃ a, Chain w'.heap r sub (a :: l) ∧ w.heap.Swap l w'.heap (a :: l) := by
  obtain ⟨n, hderef, hid, -, -⟩ := hc.deref
  unfold Nodes.getSubPath MiniFs.getSubPath
  refine .step hderef ?_
  rw [hid]
  refine .lift fun z => ?_
  cases z with
  | none => exact .ret ⟨rfl, rfl, rfl⟩
  | some pDir =>
    refine .lift fun above => ?_
    dsimp only
    cases scanSubs (frame pDir above) name 10 0 with
    | none => exact .ret ⟨rfl, rfl, rfl⟩
    | some idx =>
      obtain ⟨a, w₁, hcalloc, hpwd₁, hcell₁, hs₁⟩ := calloc_ret w
      have hs (id : Int) : w.heap.Swap [] ((w₁.heap.put a ⟨id, none⟩).put a ⟨id, q⟩) [a] :=
        (hs₁.trans (Heap.swap_put _ _ (List.mem_singleton_self a))).trans (Heap.swap_put _ _ (List.mem_singleton_self a))
      have hfresh : a ∉ l := fun ha => (hc.frame hs₁ fun _ _ => List.not_mem_nil).2 a ha (List.mem_singleton_self a)
      refine .step hcalloc (.step (assign_ret hcell₁) ?_)
      dsimp only
      split
      · refine .step (assign_ret (Heap.cell_put_self _ _ _)) (.ret ⟨hpwd₁, a, ?_, (hs _).frameRight l⟩)
        exact .node (Heap.cell_put_self _ _ _) hfresh (hc.frame (hs _) fun _ _ => List.not_mem_nil).1
      · exact Lock.fault

/-- The object `a` and the path before it: the result has been made of the path, and `a` is freed. -/
theorem tracks_freed {r : Option Ptr} {o : Option PathT} {str : Str} {w₀ : Mem} {n : Node}
    (ha : w₀.heap.cell a = some n) (hal : a ∉ l) (hg : Got w.heap r k o) (hpwd : w.pwd = w₀.pwd)
    (hs : w₀.heap.Swap l w.heap k) :
    Tracks (do free (some (.node a)); pure (r, str)) (.ret (o, str)) w (Gets w₀ (a :: l)) := by
  obtain ⟨hak, hcell⟩ := hs.cell ha hal
  have hfree := Heap.swap_free w.heap a
  refine .step (free_ret hcell) (.ret ⟨rfl, hpwd, k, ?_, (hs.frame [a]).trans (hfree.frameRight k)⟩)
  cases o with
  | none => exact hg
  | some p => exact (Chain.frame hg hfree fun b hb hmem => hak (List.mem_singleton.mp hmem ▸ hb)).1

theorem tracks_getPathFromRoot (fuel : Nat) (hc : Chain w.heap q p l) (path : Str) :
    Tracks (Nodes.getPathFromRoot fuel q path) (MiniFs.getPathFromRoot fuel p path) w (Gets w l) := by
  induction fuel generalizing w q p l path with
  | zero => exact Lock.fault
  | succ fuel ih =>
    obtain ⟨n, hderef, hid, hnull, hprev⟩ := hc.deref
    unfold Nodes.getPathFromRoot MiniFs.getPathFromRoot
    -- The path ends here.
    refine .ite (fun _ => ?_) fun _ => ?_
    · exact .ret ⟨rfl, rfl, l, hc, .refl _ _⟩
    -- `..`
    refine .ite (fun _ => ?_) fun _ => ?_
    · refine .step hderef ?_
      cases hpred : p.prev with
      | none =>
        rw [if_neg (by simpa using hnull hpred)]
        exact tracks_drop hc
      | some p' =>
        obtain ⟨a, l', rfl, rfl, hc'⟩ := hprev p' hpred
        rw [if_pos hc'.ne_none]
        refine .step hderef ?_
        obtain ⟨hal, _, hlive⟩ := hc.head
        exact tracks_freed hlive hal hc' rfl (.refl _ _)
    -- `./` and the rest
    refine .ite (fun _ => ?_) fun _ => ?_
    · refine (ih hc _).seq fun r w' r' hr => ?_
      obtain ⟨hstr, hpwd, hgot⟩ := hr
      exact .ret ⟨congrArg _ hstr, hpwd, hgot⟩
    -- `../` and the rest
    refine .ite (fun _ => ?_) fun _ => ?_
    · refine .step hderef ?_
      cases hpred : p.prev with
      | none =>
        rw [if_neg (by simpa using hnull hpred)]
        exact tracks_drop hc
      | some p' =>
        obtain ⟨a, l', rfl, rfl, hc'⟩ := hprev p' hpred
        rw [if_pos hc'.ne_none]
        refine .step hderef ((ih hc' _).seq fun r w' o hr => ?_)
        obtain ⟨r, rest⟩ := r
        obtain ⟨o, rest'⟩ := o
        obtain ⟨hal, _, hlive⟩ := hc.head
        obtain ⟨hstr, hpwd, k, hgot, hs⟩ := hr
        obtain rfl : rest = rest' := hstr
        exact tracks_freed hlive hal hgot hpwd hs
    refine .step hderef ?_
    rw [hid]
    refine .lift fun state => ?_
    refine .ite (fun _ => ?_) fun _ => ?_
    · exact tracks_drop hc
    refine (tracks_getSubPath hc _).seq fun r w' o ho => ?_
    obtain ⟨hpwd, ho⟩ := ho
    cases o with
    | none =>
      obtain ⟨rfl, rfl⟩ := ho
      exact tracks_drop hc
    | some sub =>
      obtain ⟨a, hsub, hs⟩ := ho
      obtain ⟨r, rfl⟩ := Option.ne_none_iff_exists'.mp hsub.ne_none
      dsimp only
      split
      · refine (ih hsub _).seq fun r w'' r' hr => ?_
        obtain ⟨-, hpwd', k, hgot, hs'⟩ := hr
        exact .ret ⟨rfl, hpwd'.trans hpwd, k, hgot, hs.trans hs'⟩
      · exact .ret ⟨rfl, hpwd, _, hsub, hs⟩

theorem tracks_clone {str : Str} (hc : Chain w.heap q p l) :
    Tracks (do pure (← pathClone q, str)) (.ret (some (MiniFs.pathClone p), str)) w (Gets w []) := by
  obtain ⟨r, w', l', hr, hpwd, hs, hc'⟩ := pathClone_ret hc
  rw [pathClone_eq]
  exact .step hr (.ret ⟨rfl, hpwd, l', hc', hs⟩)

/-- A path is resolved from a copy, which leaves the original. -/
theorem tracks_fromClone (hc : Chain w.heap q p l) (fuel : Nat) (path : Str) : ∃ r w', pathClone q w = .ret (r, w') ∧
    Tracks (Nodes.getPathFromRoot fuel r path) (MiniFs.getPathFromRoot fuel (MiniFs.pathClone p) path) w' (Gets w []) := by
  obtain ⟨r, w₁, l₁, hr, hpwd₁, hs₁, hc₁⟩ := pathClone_ret hc
  rw [pathClone_eq]
  refine ⟨r, w₁, hr, (tracks_getPathFromRoot fuel hc₁ path).mono fun x w₂ x' hx => ?_⟩
  obtain ⟨hstr, hpwd₂, k, hgot, hs₂⟩ := hx
  exact ⟨hstr, hpwd₂.trans hpwd₁, k, hgot, hs₁.trans hs₂⟩

theorem tracks_getPathFromPwd (fuel : Nat) (hc : Chain w.heap q p l) (path : Str) :
    Tracks (Nodes.getPathFromPwd fuel q path) (MiniFs.getPathFromPwd fuel p path) w (Gets w []) := by
  induction fuel generalizing path with
  | zero => exact Lock.fault
  | succ fuel ih =>
    obtain ⟨n, hderef, hid, hnull, hprev⟩ := hc.deref
    have hnone (str : Str) : Tracks (pure (none, str) : NodeM (Option Ptr × Str))
        (.ret (none, str) : FsM (Option PathT × Str)) w (Gets w []) :=
      .ret ⟨rfl, rfl, [], ⟨rfl, rfl⟩, .refl _ _⟩
    unfold Nodes.getPathFromPwd MiniFs.getPathFromPwd
    -- The path ends here.
    refine .ite (fun _ => ?_) fun _ => ?_
    · exact tracks_clone hc
    -- `..`
    refine .ite (fun _ => ?_) fun _ => ?_
    · refine .step hderef ?_
      cases hpred : p.prev with
      | none =>
        rw [if_neg (by simpa using hnull hpred)]
        exact hnone path
      | some p' =>
        obtain ⟨a, l', rfl, rfl, hc'⟩ := hprev p' hpred
        rw [if_pos hc'.ne_none]
        exact .step hderef (tracks_clone hc')
    -- `./` and the rest
    refine .ite (fun _ => ?_) fun _ => ?_
    · refine (ih _).seq fun r w' r' hr => ?_
      obtain ⟨hstr, hpwd, hgot⟩ := hr
      exact .ret ⟨congrArg _ hstr, hpwd, hgot⟩
    -- `../` and the rest
    refine .ite (fun _ => ?_) fun _ => ?_
    · refine .step hderef ?_
      cases hpred : p.prev with
      | none =>
        rw [if_neg (by simpa using hnull hpred)]
        exact hnone path
      | some p' =>
        obtain ⟨a, l', rfl, rfl, hc'⟩ := hprev p' hpred
        rw [if_pos hc'.ne_none]
        obtain ⟨q', w₁, hclone, htracks⟩ := tracks_fromClone hc' fuel (path.drop 3)
        refine .step hderef (.step hclone (htracks.seq fun r w' r' hr => ?_))
        obtain ⟨hstr, hpwd, hgot⟩ := hr
        exact .ret ⟨congrArg _ hstr, hpwd, hgot⟩
    refine .step hderef ?_
    rw [hid]
    refine .lift fun state => ?_
    refine .ite (fun _ => ?_) fun _ => ?_
    · exact hnone path
    · obtain ⟨q', w₁, hclone, htracks⟩ := tracks_fromClone hc fuel path
      exact .step hclone htracks

end

end MiniFs.Nodes
