import MiniFs.Theorems.WorkingDir

/-! # Resolving a path component by component

What lies above a local `dentry_t` is taken as a fixed function of the dentry and the name, so that `get_path` is a
function of the store. Its two recursions over the characters of a path are one walk over the components between the
slashes; the walk also says where the path is cut. -/

namespace MiniFs
open Interact Memory

/-! ## The machine -/

/-- The machine of a store on which the memory above a local dentry depends on the dentry and on the name alone. -/
def fixedMachine (mem : Zone → Str → Nat → Byte) : Machine fsSig Store where
  op e s := match e with
    | .stack pDir name => some (mem pDir name, s)
    | e => storeMachine.op e s
  write _ _ := none
  read _ _ := none

/-- What `get_path` returns and what its argument denotes afterwards; `none` is undefined behaviour. -/
def resolve (mem : Zone → Str → Nat → Byte) (s : Store) (pwd : PathT) (path : Str) : Option (Option PathT × Str) :=
  ((fixedMachine mem).exec (getPath pwd path) s).map Prod.fst

/-! ## Components -/

/-- The parts of a path between its slashes. -/
def components (path : Str) : List Str := path.splitOn slash

/-- The path with these components. -/
def joined (cs : List Str) : Str := [slash].intercalate cs

section
variable {c rest path : Str} {cs : List Str}

theorem joined_components (path : Str) : joined (components path) = path := List.intercalate_splitOn slash

theorem components_joined (hcs : ∀ c ∈ cs, slash ∉ c) (hne : cs ≠ []) : components (joined cs) = cs :=
  List.splitOn_intercalate slash hcs hne

theorem components_single (h : slash ∉ c) : components c = [c] := List.splitOn_eq_singleton h

theorem components_cons (h : slash ∉ c) : components (c ++ slash :: rest) = c :: components rest :=
  List.splitOn_append_cons_self_of_not_mem h rest

theorem components_append (p q : Str) : components (p ++ slash :: q) = components p ++ components q :=
  List.splitOn_append_cons_self p q

theorem components_ne_nil (path : Str) : components path ≠ [] := List.splitOn_ne_nil slash path

theorem joined_single (c : Str) : joined [c] = c := by simp [joined]

theorem joined_cons (hne : cs ≠ []) : joined (c :: cs) = c ++ slash :: joined cs := by
  cases cs with
  | nil => exact absurd rfl hne
  | cons d ds => simp [joined, List.intercalate]

/-- Induction over the components of a path. -/
theorem path_induct {P : Str → Prop} (single : ∀ c, slash ∉ c → P c)
    (cons : ∀ c rest, slash ∉ c → P rest → P (c ++ slash :: rest)) (path : Str) : P path := by
  obtain ⟨n, hn⟩ : ∃ n, path.length = n := ⟨_, rfl⟩
  induction n using Nat.strongRecOn generalizing path with
  | ind n ih =>
    by_cases hmem : slash ∈ path
    · obtain ⟨c, rest, rfl, hc⟩ := List.eq_append_cons_of_mem hmem
      have hlt : rest.length < n := by
        simp only [List.length_append, List.length_cons] at hn
        omega
      exact cons c rest hc (ih _ hlt rest rfl)
    · exact single path hmem

theorem noSlash_of_mem (h : c ∈ components path) : slash ∉ c := by
  induction path using path_induct with
  | single d hd =>
    rw [components_single hd] at h
    exact List.mem_singleton.mp h ▸ hd
  | cons d rest hd ih =>
    rw [components_cons hd] at h
    rcases List.mem_cons.mp h with rfl | h
    · exact hd
    · exact ih h

/-- The first component is empty on an empty path and before a leading slash. -/
theorem head_component (hhead : path.head? ≠ some slash) (h : (components path).head? = some []) : path = [] := by
  induction path using path_induct with
  | single d hd =>
    rw [components_single hd] at h
    exact Option.some.inj h
  | cons d rest hd _ =>
    rw [components_cons hd] at h
    cases Option.some.inj h
    exact absurd rfl hhead

theorem head_joined (hne : c ≠ []) (hc : slash ∉ c) : (joined (c :: cs)).head? ≠ some slash := by
  cases c with
  | nil => exact absurd rfl hne
  | cons b c =>
    have hb : b ≠ slash := fun h => hc (h ▸ List.mem_cons_self)
    have hhead : (joined ((b :: c) :: cs)).head? = some b := by
      cases cs with
      | nil => rw [joined_single]; rfl
      | cons d ds => rw [joined_cons (List.cons_ne_nil _ _)]; rfl
    rw [hhead]
    exact fun h => hb (Option.some.inj h)

/-- A component that `get_path` looks up in a directory, unless it is empty and the last one. -/
structure IsName (c : Str) : Prop where
  noSlash : slash ∉ c
  dot : c ≠ lit "."
  dots : c ≠ lit ".."

/-- The cases that the two recursions of `get_path` tell apart. -/
inductive PathForm : Str → Prop
  | nil : PathForm []
  | dot : PathForm (lit ".")
  | dots : PathForm (lit "..")
  | here (rest : Str) : PathForm (lit "." ++ slash :: rest)
  | up (rest : Str) : PathForm (lit ".." ++ slash :: rest)
  | last (c : Str) : IsName c → c ≠ [] → PathForm c
  | name (c rest : Str) : IsName c → PathForm (c ++ slash :: rest)

theorem pathForm (path : Str) : PathForm path := by
  by_cases h : slash ∈ path
  · obtain ⟨c, rest, rfl, hc⟩ := List.eq_append_cons_of_mem h
    by_cases hdot : c = lit "."
    · exact hdot ▸ .here rest
    by_cases hdots : c = lit ".."
    · exact hdots ▸ .up rest
    exact .name c rest ⟨hc, hdot, hdots⟩
  · by_cases hnil : path = []
    · exact hnil ▸ .nil
    by_cases hdot : path = lit "."
    · exact hdot ▸ .dot
    by_cases hdots : path = lit ".."
    · exact hdots ▸ .dots
    exact .last path ⟨h, hdot, hdots⟩ hnil

theorem IsName.plain_last (h : IsName c) (hne : c ≠ []) : Plain c where
  nil := hne
  dot := h.dot
  dots := h.dots
  here := fun heq => by
    have hmem : slash ∈ c.take 2 := by rw [heq]; decide
    exact h.noSlash (List.mem_of_mem_take hmem)
  up := fun heq => by
    have hmem : slash ∈ c.take 3 := by rw [heq]; decide
    exact h.noSlash (List.mem_of_mem_take hmem)

theorem IsName.plain_name (h : IsName c) : Plain (c ++ slash :: rest) := by
  have hmem : slash ∈ c ++ slash :: rest := by simp
  refine ⟨by simp, fun heq => ?_, fun heq => ?_, fun heq => ?_, fun heq => ?_⟩
  · exact absurd (heq ▸ hmem) (by decide)
  · exact absurd (heq ▸ hmem) (by decide)
  · have hdot := h.dot
    have hslash := h.noSlash
    match c with
    | [] => exact absurd (List.cons.inj heq).1 (by decide)
    | [a] => exact hdot (by rw [(List.cons.inj heq).1]; rfl)
    | a :: b :: t =>
      refine hslash ?_
      rw [← show b = slash from (List.cons.inj (List.cons.inj heq).2).1]
      simp
  · have hdots := h.dots
    have hslash := h.noSlash
    match c with
    | [] => exact absurd (List.cons.inj heq).1 (by decide)
    | [a] => exact absurd (List.cons.inj (List.cons.inj heq).2).1 (by decide)
    | [a, b] =>
      refine hdots ?_
      rw [(List.cons.inj heq).1, (List.cons.inj (List.cons.inj heq).2).1]
      rfl
    | a :: b :: d :: t =>
      refine hslash ?_
      rw [← show d = slash from (List.cons.inj (List.cons.inj (List.cons.inj heq).2).2).1]
      simp

theorem takeWhile_name (h : slash ∉ c) : (c ++ slash :: rest).takeWhile (· ≠ slash) = c := by
  have hc : ∀ a ∈ c, decide (a ≠ slash) = true := fun _ ha => decide_eq_true fun heq => h (heq ▸ ha)
  rw [List.takeWhile_append_of_pos hc]
  simp

end

/-! ## The walk over the components -/

/-- A component that is neither one dot nor two nor an empty one at the end. -/
structure NotDots (c : Str) (cs : List Str) : Prop where
  inner : ¬(c = [] ∧ cs = [])
  dot : c ≠ lit "."
  dots : c ≠ lit ".."

namespace Store

/-- What `get_sub_path` returns below a node that can be read. -/
def sub (mem : Zone → Str → Nat → Byte) (s : Store) (p : PathT) (name : Str) : Option (Option PathT) :=
  let at' := frame (s.zones p.id) (mem (s.zones p.id) name)
  match scanSubs at' name 10 0 with
  | none => some none
  | some idx =>
    if 2 + name.length + 1 ≤ 16 then
      some (some (.node (int16Of (at' (dentry.idOff idx)) (at' (dentry.idOff idx + 1))) p))
    else none

/-- What `get_path_from_root` returns, and the components of what its argument denotes afterwards. -/
def trace (mem : Zone → Str → Nat → Byte) (s : Store) : PathT → List Str → Option (Option PathT × List Str)
  | p, [] => some (some p, [])
  | p, c :: cs =>
    if c = [] ∧ cs = [] then some (some p, [c])
    else if c = lit "." then (trace mem s p cs).map fun r => (r.1, c :: r.2)
    else if c = lit ".." then
      match p.prev with
      | none => some (none, c :: cs)
      | some prev => (trace mem s prev cs).map fun r => (r.1, c :: r.2)
    else
      match s.state p.id with
      | none => none
      | some b =>
        if b ≠ dOccupied then some (none, c :: cs)
        else match s.sub mem p c with
          | none => none
          | some none => some (none, [c])
          | some (some q) => (trace mem s q cs).map fun r => (r.1, [c])

/-- The walks that are defined, with their outcome and what is left of the path. -/
inductive Walk (mem : Zone → Str → Nat → Byte) (s : Store) : PathT → List Str → Option PathT → List Str → Prop
  | nil (p : PathT) : Walk mem s p [] (some p) []
  | last (p : PathT) : Walk mem s p [[]] (some p) [[]]
  | dot {p : PathT} {cs cut : List Str} {o : Option PathT} : Walk mem s p cs o cut →
      Walk mem s p (lit "." :: cs) o (lit "." :: cut)
  | top {p : PathT} {cs : List Str} : p.prev = none → Walk mem s p (lit ".." :: cs) none (lit ".." :: cs)
  | dots {p q : PathT} {cs cut : List Str} {o : Option PathT} : p.prev = some q → Walk mem s q cs o cut →
      Walk mem s p (lit ".." :: cs) o (lit ".." :: cut)
  | file {p : PathT} {c : Str} {cs : List Str} {b : Byte} : NotDots c cs → s.state p.id = some b → b ≠ dOccupied →
      Walk mem s p (c :: cs) none (c :: cs)
  | missing {p : PathT} {c : Str} {cs : List Str} : NotDots c cs → s.state p.id = some dOccupied →
      s.sub mem p c = some none → Walk mem s p (c :: cs) none [c]
  | name {p q : PathT} {c : Str} {cs cut : List Str} {o : Option PathT} : NotDots c cs → s.state p.id = some dOccupied →
      s.sub mem p c = some (some q) → Walk mem s q cs o cut → Walk mem s p (c :: cs) o [c]

end Store

section
variable {mem : Zone → Str → Nat → Byte} {s : Store} {p q : PathT} {path name c : Str} {cs cut : List Str} {o : Option PathT}

theorem NotDots.append {cs' : List Str} (h : NotDots c cs) (hne : cs' ≠ []) : NotDots c (cs ++ cs') where
  inner := fun h0 => hne (List.append_eq_nil_iff.mp h0.2).2
  dot := h.dot
  dots := h.dots

theorem trace_dot : s.trace mem p (lit "." :: cs) = (s.trace mem p cs).map fun r => (r.1, lit "." :: r.2) := by
  rw [Store.trace, if_neg (by simp [lit]), if_pos rfl]

theorem trace_dots (hprev : p.prev = some q) :
    s.trace mem p (lit ".." :: cs) = (s.trace mem q cs).map fun r => (r.1, lit ".." :: r.2) := by
  rw [Store.trace, if_neg (by simp [lit]), if_neg (by decide), if_pos rfl, hprev]

theorem trace_top (hprev : p.prev = none) : s.trace mem p (lit ".." :: cs) = some (none, lit ".." :: cs) := by
  rw [Store.trace, if_neg (by simp [lit]), if_neg (by decide), if_pos rfl, hprev]

theorem trace_file {b : Byte} (hc : NotDots c cs) (hstate : s.state p.id = some b) (hb : b ≠ dOccupied) :
    s.trace mem p (c :: cs) = some (none, c :: cs) := by
  rw [Store.trace, if_neg hc.inner, if_neg hc.dot, if_neg hc.dots, hstate]
  dsimp only
  rw [if_pos hb]

theorem trace_dir (hc : NotDots c cs) (hdir : s.state p.id = some dOccupied) :
    s.trace mem p (c :: cs) = match s.sub mem p c with
      | none => none
      | some none => some (none, [c])
      | some (some q) => (s.trace mem q cs).map fun r => (r.1, [c]) := by
  rw [Store.trace, if_neg hc.inner, if_neg hc.dot, if_neg hc.dots, hdir]
  dsimp only
  rw [if_neg (not_not.mpr rfl)]

/-- The outcomes of a walk. -/
theorem trace_iff : s.trace mem p cs = some (o, cut) ↔ s.Walk mem p cs o cut := by
  constructor
  · intro h
    induction cs generalizing p o cut with
    | nil =>
      cases h
      exact .nil p
    | cons c cs ih =>
      by_cases hinner : c = [] ∧ cs = []
      · obtain ⟨rfl, rfl⟩ := hinner
        cases h
        exact .last p
      by_cases hdot : c = lit "."
      · subst hdot
        rw [trace_dot] at h
        obtain ⟨⟨_, _⟩, hcs, heq⟩ := Option.map_eq_some_iff.mp h
        cases heq
        exact .dot (ih hcs)
      by_cases hdots : c = lit ".."
      · subst hdots
        cases hprev : p.prev with
        | none =>
          rw [trace_top hprev] at h
          cases h
          exact .top hprev
        | some q =>
          rw [trace_dots hprev] at h
          obtain ⟨⟨_, _⟩, hcs, heq⟩ := Option.map_eq_some_iff.mp h
          cases heq
          exact .dots hprev (ih hcs)
      have hc : NotDots c cs := ⟨hinner, hdot, hdots⟩
      cases hstate : s.state p.id with
      | none =>
        rw [Store.trace, if_neg hinner, if_neg hdot, if_neg hdots, hstate] at h
        cases h
      | some b =>
        by_cases hdir : b = dOccupied
        · subst hdir
          rw [trace_dir hc hstate] at h
          cases hsub : s.sub mem p c with
          | none =>
            rw [hsub] at h
            cases h
          | some sub =>
            rw [hsub] at h
            cases sub with
            | none =>
              cases h
              exact .missing hc hstate hsub
            | some q =>
              obtain ⟨⟨_, _⟩, hcs, heq⟩ := Option.map_eq_some_iff.mp h
              cases heq
              exact .name hc hstate hsub (ih hcs)
        · rw [trace_file hc hstate hdir] at h
          cases h
          exact .file hc hstate hdir
  · intro h
    induction h with
    | nil p => rfl
    | last p => rfl
    | dot _ ih => rw [trace_dot, ih, Option.map_some]
    | top hprev => exact trace_top hprev
    | dots hprev _ ih => rw [trace_dots hprev, ih, Option.map_some]
    | file hc hstate hb => exact trace_file hc hstate hb
    | missing hc hdir hsub => rw [trace_dir hc hdir, hsub]
    | name hc hdir hsub _ ih =>
      rw [trace_dir hc hdir, hsub]
      dsimp only
      rw [ih, Option.map_some]

theorem trace_ne_nil {r : Option PathT × List Str} (hne : cs ≠ []) (h : s.trace mem p cs = some r) : r.2 ≠ [] := by
  obtain ⟨o, cut⟩ := r
  cases trace_iff.mp h with
  | nil => exact absurd rfl hne
  | _ => exact List.cons_ne_nil _ _

theorem exec_getState {id : Int} : (fixedMachine mem).exec (Fs.getState id) s = (s.state id).map fun b => (b, s) := by
  refine Machine.exec_op.trans ?_
  show ((s.state id).map fun b => (b, s)).bind _ = _
  cases s.state id <;> rfl

theorem exec_getSubPath (h4 : 4 ≤ p.id) :
    (fixedMachine mem).exec (getSubPath p name) s = (s.sub mem p name).map fun r => (r, s) := by
  have hread : (fixedMachine mem).exec (Fs.readZone p.id) s = some (some (s.zones p.id), s) := by
    show some (if p.id < 4 then none else some (s.zones p.id), s) = _
    rw [if_neg (by omega)]
  have hstack : (fixedMachine mem).exec (Fs.stack (s.zones p.id) name) s = some (mem (s.zones p.id) name, s) := rfl
  unfold getSubPath Store.sub
  rw [Machine.exec_bind, hread, Option.bind_some]
  dsimp only
  rw [Machine.exec_bind, hstack, Option.bind_some]
  dsimp only
  cases scanSubs (frame (s.zones p.id) (mem (s.zones p.id) name)) name 10 0 with
  | none => rfl
  | some idx =>
    dsimp only
    split <;> rfl

/-- The step of `get_path_from_root` that looks a name up, when what it does on a node found is what `trace` says. -/
theorem exec_name {f : PathT → FsM (Option PathT × Str)} (hc : NotDots c cs) (hpath : joined (c :: cs) = path)
    (hf : ∀ q, (fixedMachine mem).exec (f q) s = ((s.trace mem q cs).map fun r => (r.1, [c])).map
      fun r => ((r.1, joined r.2), s)) :
    (fixedMachine mem).exec (do
        if (← Fs.getState p.id) ≠ dOccupied then .ret (none, path)
        else
          match ← getSubPath p c with
          | none => .ret (none, c)
          | some sub => f sub) s =
      (s.trace mem p (c :: cs)).map fun r => ((r.1, joined r.2), s) := by
  subst hpath
  rw [Machine.exec_bind, exec_getState]
  cases hstate : s.state p.id with
  | none =>
    rw [Store.trace, if_neg hc.inner, if_neg hc.dot, if_neg hc.dots, hstate]
    rfl
  | some b =>
    rw [Option.map_some, Option.bind_some]
    dsimp only
    by_cases hdir : b = dOccupied
    · subst hdir
      rw [if_neg (not_not.mpr rfl), trace_dir hc hstate, Machine.exec_bind,
        exec_getSubPath (Store.le_of_state hstate (by decide))]
      cases s.sub mem p c with
      | none => rfl
      | some o =>
        cases o with
        | none =>
          dsimp only [Option.map_some, Option.bind_some]
          rw [joined_single]
          rfl
        | some q => exact hf q
    · rw [if_pos hdir, trace_file hc hstate hdir]
      rfl

/-- `get_path_from_root` -/
theorem exec_fromRoot {fuel : Nat} (hfuel : path.length < fuel) :
    (fixedMachine mem).exec (getPathFromRoot fuel p path) s =
      (s.trace mem p (components path)).map fun r => ((r.1, joined r.2), s) := by
  induction fuel generalizing p path with
  | zero => omega
  | succ fuel ih =>
    unfold getPathFromRoot
    cases pathForm path with
    | nil => rfl
    | dot => rfl
    | dots =>
      have htrace : s.trace mem p (components (lit "..")) = some (p.prev, [lit ".."]) := by
        rw [show components (lit "..") = [lit ".."] from by decide]
        cases p <;> rfl
      rw [htrace]
      rfl
    | here rest =>
      have hlen : rest.length < fuel := by simp only [List.length_append, List.length_cons] at hfuel; omega
      have hmem : slash ∈ lit "." ++ slash :: rest := by simp
      have hdots : lit "." ++ slash :: rest ≠ lit ".." := fun h => absurd (h ▸ hmem) (by decide)
      have htake : (lit "." ++ slash :: rest).take 2 = lit "./" := rfl
      rw [components_cons (by decide), if_neg (by simp), if_neg hdots, if_pos htake, Store.trace, if_neg (by simp [lit]),
        if_pos rfl, Machine.exec_bind, show (lit "." ++ slash :: rest).drop 2 = rest from rfl, ih hlen]
      cases htrace : s.trace mem p (components rest) with
      | none => rfl
      | some r =>
        dsimp only [Option.map_some, Option.bind_some]
        rw [joined_cons (trace_ne_nil (components_ne_nil rest) htrace)]
        rfl
    | up rest =>
      have hlen : rest.length < fuel := by simp only [List.length_append, List.length_cons] at hfuel; omega
      have hmem : slash ∈ lit ".." ++ slash :: rest := by simp
      have hdot : ¬(lit ".." ++ slash :: rest = [] ∨ lit ".." ++ slash :: rest = lit ".") :=
        not_or.mpr ⟨by simp, fun h => absurd (h ▸ hmem) (by decide)⟩
      have htake : (lit ".." ++ slash :: rest).take 3 = lit "../" := rfl
      rw [components_cons (by decide), if_neg hdot, if_neg (by simp), if_neg (by simp [lit, slash]), if_pos htake,
        Store.trace,
        if_neg (by simp [lit]), if_neg (by decide), if_pos rfl]
      cases p.prev with
      | none =>
        rw [Option.map_some, ← components_cons (by decide), joined_components]
        rfl
      | some prev =>
        rw [Machine.exec_bind, show (lit ".." ++ slash :: rest).drop 3 = rest from rfl, ih hlen]
        dsimp only
        cases htrace : s.trace mem prev (components rest) with
        | none => rfl
        | some r =>
          dsimp only [Option.map_some, Option.bind_some]
          rw [joined_cons (trace_ne_nil (components_ne_nil rest) htrace)]
          rfl
    | last _ hc hne =>
      have hplain := hc.plain_last hne
      have hdots : NotDots path [] := ⟨fun h => hne h.1, hc.dot, hc.dots⟩
      rw [if_neg (not_or.mpr ⟨hplain.nil, hplain.dot⟩), if_neg hplain.dots, if_neg hplain.here, if_neg hplain.up,
        takeWhile_of_not_mem hc.noSlash, components_single hc.noSlash]
      refine exec_name hdots (joined_single path) fun q => ?_
      rw [if_neg (Nat.lt_irrefl _), Store.trace, Option.map_some, Option.map_some, joined_single]
      rfl
    | name c rest hc =>
      have hplain : Plain (c ++ slash :: rest) := hc.plain_name
      have hdots : NotDots c (components rest) := ⟨fun h => components_ne_nil _ h.2, hc.dot, hc.dots⟩
      have hlen : rest.length < fuel := by simp only [List.length_append, List.length_cons] at hfuel; omega
      have hmore : c.length < (c ++ slash :: rest).length := by simp
      have hdrop : (c ++ slash :: rest).drop (c.length + 1) = rest := by simp [List.drop_append]
      rw [if_neg (not_or.mpr ⟨hplain.nil, hplain.dot⟩), if_neg hplain.dots, if_neg hplain.here, if_neg hplain.up,
        takeWhile_name hc.noSlash, components_cons hc.noSlash]
      refine exec_name hdots (components_cons hc.noSlash ▸ joined_components _) fun q => ?_
      rw [if_pos hmore, hdrop, Machine.exec_bind, ih hlen]
      cases s.trace mem q (components rest) with
      | none => rfl
      | some r =>
        rw [Option.map_some, Option.bind_some, Option.map_some, Option.map_some, joined_single]
        rfl

/-- `get_path_from_pwd` does what `get_path_from_root` does on the nodes above `pwd`. -/
theorem exec_fromPwd {fuel : Nat} (hfuel : path.length + 1 < fuel) :
    (fixedMachine mem).exec (getPathFromPwd fuel p path) s = (fixedMachine mem).exec (getPathFromRoot fuel p path) s := by
  induction fuel generalizing path with
  | zero => omega
  | succ fuel ih =>
    have hstep : (fixedMachine mem).exec (getPathFromRoot fuel p path) s =
        (fixedMachine mem).exec (getPathFromRoot (fuel + 1) p path) s := by
      rw [exec_fromRoot (show path.length < fuel by omega), exec_fromRoot (show path.length < fuel + 1 by omega)]
    unfold getPathFromPwd
    by_cases hdot : path = [] ∨ path = lit "."
    · rw [getPathFromRoot, if_pos hdot, if_pos hdot, pathClone_eq]
    have hne : 0 < path.length := List.length_pos_of_ne_nil fun h => hdot (Or.inl h)
    by_cases hdots : path = lit ".."
    · rw [getPathFromRoot, if_neg hdot, if_neg hdot, if_pos hdots, if_pos hdots]
      cases p with
      | root => rfl
      | node id prev => rw [PathT.prev, Option.map_some, pathClone_eq]
    by_cases hhere : path.take 2 = lit "./"
    · rw [getPathFromRoot, if_neg hdot, if_neg hdot, if_neg hdots, if_neg hdots, if_pos hhere, if_pos hhere,
      Machine.exec_bind,
        Machine.exec_bind, ih (by rw [List.length_drop]; omega)]
    by_cases hup : path.take 3 = lit "../"
    · rw [getPathFromRoot, if_neg hdot, if_neg hdot, if_neg hdots, if_neg hdots, if_neg hhere, if_neg hhere, if_pos hup,
        if_pos hup]
      cases p with
      | root => rfl
      | node id prev => simp only [PathT.prev, pathClone_eq]
    rw [if_neg hdot, if_neg hdots, if_neg hhere, if_neg hup, pathClone_eq, Machine.exec_bind, exec_getState]
    -- The state of the node is looked at here, and again by the other function.
    cases hstate : s.state p.id with
    | none =>
      rw [getPathFromRoot, if_neg hdot, if_neg hdots, if_neg hhere, if_neg hup, Machine.exec_bind, exec_getState, hstate]
      rfl
    | some b =>
      rw [Option.map_some, Option.bind_some]
      dsimp only
      by_cases hdir : b = dOccupied
      · rw [if_neg (not_not.mpr hdir), hstep]
      · rw [if_pos hdir, getPathFromRoot, if_neg hdot, if_neg hdots, if_neg hhere, if_neg hup, Machine.exec_bind,
        exec_getState,
          hstate, Option.map_some, Option.bind_some]
        dsimp only
        rw [if_pos hdir]

end

/-! ## `get_path` -/

/-- The node that a path starts from. -/
def startNode (pwd : PathT) (path : Str) : PathT := if path.head? = some slash then .root else pwd

/-- The components after it. -/
def startPath (path : Str) : List Str := components (if path.head? = some slash then path.tail else path)

/-- The path that starts as `path` does and has these components. -/
def rejoin (path : Str) (cs : List Str) : Str := if path.head? = some slash then slash :: joined cs else joined cs

section
variable {mem : Zone → Str → Nat → Byte} {s : Store} {pwd p q r : PathT} {path : Str} {cs cs' : List Str}

theorem exec_getPath : (fixedMachine mem).exec (getPath pwd path) s =
    (s.trace mem (startNode pwd path) (startPath path)).map fun r => ((r.1, rejoin path r.2), s) := by
  unfold startNode startPath rejoin
  cases path with
  | nil =>
    unfold getPath
    rw [exec_fromPwd (by decide), exec_fromRoot (by decide)]
    rfl
  | cons c rest =>
    unfold getPath
    dsimp only [List.head?_cons, List.tail_cons]
    by_cases hc : c = slash
    · subst hc
      simp only [if_true]
      rw [Machine.exec_bind, exec_fromRoot (Nat.lt_succ_self _)]
      cases s.trace mem .root (components rest) <;> rfl
    · have hhead : ¬some c = some slash := fun h => hc (Option.some.inj h)
      simp only [hc, hhead, if_false]
      rw [exec_fromPwd (by simp), exec_fromRoot (by simp)]

theorem resolve_eq : resolve mem s pwd path =
    (s.trace mem (startNode pwd path) (startPath path)).map fun r => (r.1, rejoin path r.2) := by
  unfold resolve
  rw [exec_getPath, Option.map_map]
  rfl

/-! ## Changing the directory -/

/-- A path that ends in an empty component is empty or ends in a slash. -/
theorem last_component (h : (components path).getLast? = some []) : path = [] ∨ path.getLast? = some slash := by
  induction path using path_induct with
  | single d hd =>
    rw [components_single hd] at h
    exact Or.inl (Option.some.inj h)
  | cons d rest hd ih =>
    right
    rw [components_cons hd, List.getLast?_cons_of_ne_nil (components_ne_nil rest)] at h
    rcases ih h with rfl | hrest
    · simp
    · have hne : rest ≠ [] := fun h0 => by simp [h0] at hrest
      rw [List.getLast?_append, List.getLast?_cons_of_ne_nil hne, hrest]
      rfl

/-- What follows a path is walked from the node that the path leads to. -/
theorem trace_append (hlast : cs.getLast? ≠ some []) (hne : cs' ≠ []) {cut : List Str}
    (h : s.trace mem p cs = some (some r, cut)) :
    (s.trace mem p (cs ++ cs')).map Prod.fst = (s.trace mem r cs').map Prod.fst := by
  have htail : ∀ {c cs}, (c :: cs).getLast? ≠ some [] → cs.getLast? ≠ some ([] : Str) := fun {c cs} hl => by
    cases cs with
    | nil => exact Option.some_ne_none _ ∘ Eq.symm
    | cons d ds => rwa [List.getLast?_cons_of_ne_nil (List.cons_ne_nil _ _)] at hl
  generalize ho : some r = o at h
  have hwalk := trace_iff.mp h
  clear h
  induction hwalk with
  | nil p =>
    cases ho
    rfl
  | last p => exact absurd rfl hlast
  | dot _ ih =>
    rw [List.cons_append, trace_dot, Option.map_map]
    exact ih (htail hlast) ho
  | dots hprev _ ih =>
    rw [List.cons_append, trace_dots hprev, Option.map_map]
    exact ih (htail hlast) ho
  | name hc hdir hsub _ ih =>
    rw [List.cons_append, trace_dir (hc.append hne) hdir, hsub]
    dsimp only
    rw [Option.map_map]
    exact ih (htail hlast) ho
  | top _ => cases ho
  | file _ _ _ => cases ho
  | missing _ _ _ => cases ho

/-- `cd` to a directory -/
theorem exec_change {cut : Str} (hres : resolve mem s pwd path = some (some r, cut)) (hdir : s.state r.id = some dOccupied) :
    (fixedMachine mem).exec (change pwd path) s = some ((0, r), s) := by
  have hexec : (fixedMachine mem).exec (getPath pwd path) s = some ((some r, cut), s) := by
    rw [resolve_eq] at hres
    obtain ⟨t, htrace, heq⟩ := Option.map_eq_some_iff.mp hres
    rw [exec_getPath, htrace, Option.map_some, heq]
  unfold change
  rw [Machine.exec_bind, hexec, Option.bind_some]
  dsimp only
  rw [Machine.exec_bind, exec_getState, hdir, Option.map_some, Option.bind_some]
  rfl

theorem startPath_last (hne : path ≠ []) (hend : path.getLast? ≠ some slash) : (startPath path).getLast? ≠ some [] := by
  intro h
  cases path with
  | nil => exact hne rfl
  | cons c rest =>
    unfold startPath at h
    by_cases hc : c = slash
    · subst hc
      rw [List.head?_cons, if_pos rfl, List.tail_cons] at h
      rcases last_component h with rfl | hrest
      · exact hend rfl
      · cases rest with
        | nil => cases hrest
        | cons d rest => exact hend (by rwa [List.getLast?_cons_of_ne_nil (List.cons_ne_nil d rest)])
    · rw [List.head?_cons, if_neg fun heq => hc (Option.some.inj heq)] at h
      exact (last_component h).elim hne hend

theorem startPath_append {q : Str} (hne : path ≠ []) : startPath (path ++ slash :: q) = startPath path ++ components q := by
  unfold startPath
  rw [List.head?_append_of_ne_nil _ hne, List.tail_append_of_ne_nil hne]
  split <;> exact components_append _ _

end

/-- `cd p` and then `q` leads where the path `p/q` leads, over the same nodes. -/
theorem resolve_after_cd (mem : Zone → Str → Nat → Byte) (s : Store) (pwd r : PathT) (p q cut : Str) (hp : p ≠ [])
    (hend : p.getLast? ≠ some slash) (hq : q.head? ≠ some slash) (hres : resolve mem s pwd p = some (some r, cut))
    (hdir : s.state r.id = some dOccupied) : (fixedMachine mem).exec (change pwd p) s = some ((0, r), s) ∧
      (resolve mem s r q).map Prod.fst = (resolve mem s pwd (p ++ slash :: q)).map Prod.fst := by
  refine ⟨exec_change hres hdir, ?_⟩
  have hnode : startNode pwd (p ++ slash :: q) = startNode pwd p := by
    unfold startNode
    rw [List.head?_append_of_ne_nil _ hp]
  rw [resolve_eq] at hres
  obtain ⟨⟨_, cut'⟩, htrace, heq⟩ := Option.map_eq_some_iff.mp hres
  cases heq
  have happend := trace_append (startPath_last hp hend) (components_ne_nil q) htrace
  rw [resolve_eq, resolve_eq, Option.map_map, Option.map_map, hnode, startPath_append hp]
  unfold startNode startPath
  rw [if_neg hq, if_neg hq]
  exact happend.symm

/-- After `cd d` the file of `d` has a path from there. -/
theorem resolve_after_cd_sample :
    (fixedMachine fun _ _ _ => 0).exec (change .root (lit "d")) sampleDisk = some ((0, .node 8 .root), sampleDisk) ∧
      (resolve (fun _ _ _ => 0) sampleDisk (.node 8 .root) (lit "x")).map Prod.fst =
        some (some (.node 9 (.node 8 .root))) := by
  obtain ⟨hcd, hsame⟩ := resolve_after_cd (fun _ _ _ => 0) sampleDisk .root (.node 8 .root) (lit "d") (lit "x") (lit "d")
    (by decide) (by decide) (by decide) (by decide +kernel) (by decide +kernel)
  refine ⟨hcd, hsame.trans ?_⟩
  decide +kernel

/-! ## Resolving a path again -/

namespace Store

/-- The components lead from one node to another. -/
inductive Leads (mem : Zone → Str → Nat → Byte) (s : Store) : PathT → List Str → PathT → Prop
  | nil (p : PathT) : Leads mem s p [] p
  | last (p : PathT) : Leads mem s p [[]] p
  | dot {p r : PathT} {cs : List Str} : Leads mem s p cs r → Leads mem s p (lit "." :: cs) r
  | dots {p q r : PathT} {cs : List Str} : p.prev = some q → Leads mem s q cs r → Leads mem s p (lit ".." :: cs) r
  | name {p q r : PathT} {c : Str} {cs : List Str} : NotDots c cs → s.state p.id = some dOccupied →
      s.sub mem p c = some (some q) → Leads mem s q cs r → Leads mem s p (c :: cs) r

/-- The first name after the dots is the last component, or is not looked up in a directory or not found there, or what
    follows it leads back to the zone that the name leads to. An empty name that is not the last component is to be
    found, and what follows it is to lead back to the directory. -/
def Recurs (mem : Zone → Str → Nat → Byte) (s : Store) : PathT → List Str → Prop
  | _, [] => True
  | p, c :: cs =>
    if c = lit "." then Recurs mem s p cs
    else if c = lit ".." then
      match p.prev with
      | none => True
      | some prev => Recurs mem s prev cs
    else cs = [] ∨ s.state p.id ≠ some dOccupied ∨ (c ≠ [] ∧ s.sub mem p c = some none) ∨
      ∃ q r, s.sub mem p c = some (some q) ∧ s.Leads mem q cs r ∧ r.id = (if c = [] then p else q).id

end Store

section
variable {mem : Zone → Str → Nat → Byte} {s : Store} {pwd p q r : PathT} {path c : Str} {cs cut : List Str} {o : Option PathT}

theorem leads_iff : s.Leads mem p cs r ↔ ∃ cut, s.Walk mem p cs (some r) cut := by
  constructor
  · intro h
    induction h with
    | nil p => exact ⟨_, .nil p⟩
    | last p => exact ⟨_, .last p⟩
    | dot _ ih =>
      obtain ⟨_, h⟩ := ih
      exact ⟨_, .dot h⟩
    | dots hprev _ ih =>
      obtain ⟨_, h⟩ := ih
      exact ⟨_, .dots hprev h⟩
    | name hc hdir hsub _ ih =>
      obtain ⟨_, h⟩ := ih
      exact ⟨_, .name hc hdir hsub h⟩
  · rintro ⟨cut, h⟩
    generalize ho : some r = o at h
    induction h with
    | nil p =>
      cases ho
      exact .nil _
    | last p =>
      cases ho
      exact .last _
    | dot _ ih => exact .dot (ih ho)
    | dots hprev _ ih => exact .dots hprev (ih ho)
    | name hc hdir hsub _ ih => exact .name hc hdir hsub (ih ho)
    | top _ => cases ho
    | file _ _ _ => cases ho
    | missing _ _ _ => cases ho

/-- Another walk has an outcome with the same id. -/
def SameOutcome (mem : Zone → Str → Nat → Byte) (s : Store) (p : PathT) (cs : List Str) (o : Option PathT) : Prop :=
  ∃ o' cut, s.trace mem p cs = some (o', cut) ∧ o'.map PathT.id = o.map PathT.id

theorem sameOutcome_map {cs' : List Str} {f : Option PathT × List Str → List Str}
    (h : s.trace mem p cs = (s.trace mem q cs').map fun r => (r.1, f r)) :
    SameOutcome mem s p cs o ↔ SameOutcome mem s q cs' o := by
  constructor
  · rintro ⟨o', cut, hcs, ho⟩
    rw [h] at hcs
    obtain ⟨⟨_, cut'⟩, hcs', heq⟩ := Option.map_eq_some_iff.mp hcs
    cases heq
    exact ⟨_, _, hcs', ho⟩
  · rintro ⟨o', cut, hcs, ho⟩
    exact ⟨o', f (o', cut), by rw [h, hcs]; rfl, ho⟩

theorem sameOutcome_iff (h : s.trace mem p cs = some (o, cut)) {o' : Option PathT} :
    SameOutcome mem s p cs o' ↔ o.map PathT.id = o'.map PathT.id := by
  constructor
  · rintro ⟨_, _, hcs, ho⟩
    rw [h] at hcs
    cases hcs
    exact ho
  · exact fun ho => ⟨o, cut, h, ho⟩

theorem NotDots.recurs (hc : NotDots c cs) : s.Recurs mem p (c :: cs) ↔ cs = [] ∨ s.state p.id ≠ some dOccupied ∨
    (c ≠ [] ∧ s.sub mem p c = some none) ∨
      ∃ q r, s.sub mem p c = some (some q) ∧ s.Leads mem q cs r ∧ r.id = (if c = [] then p else q).id := by
  rw [Store.Recurs, if_neg hc.dot, if_neg hc.dots]

/-- The second walk goes over the dots again and ends at the first name. -/
theorem trace_cut (h : s.Walk mem p cs o cut) : SameOutcome mem s p cut o ↔ s.Recurs mem p cs := by
  induction h with
  | nil p => exact iff_of_true ⟨_, _, rfl, rfl⟩ trivial
  | last p => exact iff_of_true ⟨_, _, rfl, rfl⟩ (Or.inl rfl)
  | dot _ ih =>
    rw [sameOutcome_map trace_dot, Store.Recurs, if_pos rfl]
    exact ih
  | dots hprev _ ih =>
    rw [sameOutcome_map (trace_dots hprev), Store.Recurs, if_neg (by decide), if_pos rfl, hprev]
    exact ih
  | top hprev =>
    rw [sameOutcome_iff (trace_top hprev), Store.Recurs, if_neg (by decide), if_pos rfl, hprev]
    exact iff_of_true rfl trivial
  | file hc hstate hb =>
    rw [sameOutcome_iff (trace_file hc hstate hb), hc.recurs]
    exact iff_of_true rfl (Or.inr (Or.inl (hstate ▸ fun h => hb (Option.some.inj h))))
  | @missing p c cs hc hdir hsub =>
    rw [hc.recurs]
    by_cases hnil : c = []
    · -- The name that is left denotes the directory itself.
      subst hnil
      have hend : s.trace mem p [[]] = some (some p, [[]]) := rfl
      refine iff_of_false (fun h => ?_) (fun h => ?_)
      · exact Option.some_ne_none _ ((sameOutcome_iff hend).mp h)
      · rcases h with h | h | h | ⟨q, r, h, -⟩
        · exact hc.inner ⟨rfl, h⟩
        · exact h hdir
        · exact h.1 rfl
        · rw [hsub] at h
          cases h
    · have hc' : NotDots c [] := ⟨fun h => hnil h.1, hc.dot, hc.dots⟩
      have htrace : s.trace mem p [c] = some (none, [c]) := by rw [trace_dir hc' hdir, hsub]
      exact iff_of_true ⟨_, _, htrace, rfl⟩ (Or.inr (Or.inr (Or.inl ⟨hnil, hsub⟩)))
  | @name p q c cs cut o hc hdir hsub hwalk ih =>
    rw [hc.recurs]
    have hend : s.trace mem p [c] = some (some (if c = [] then p else q), [c]) := by
      by_cases hnil : c = []
      · rw [if_pos hnil, hnil]
        rfl
      · have hc' : NotDots c [] := ⟨fun h => hnil h.1, hc.dot, hc.dots⟩
        rw [trace_dir hc' hdir, hsub, if_neg hnil]
        rfl
    rw [sameOutcome_iff hend]
    constructor
    · intro heq
      cases o with
      | none => cases heq
      | some r => exact Or.inr (Or.inr (Or.inr ⟨q, r, hsub, leads_iff.mpr ⟨_, hwalk⟩, (Option.some.inj heq).symm⟩))
    · rintro (rfl | h | ⟨-, h⟩ | ⟨q', r, h, hleads, hid⟩)
      · cases hwalk
        rw [if_neg fun h => hc.inner ⟨h, rfl⟩]
      · exact absurd hdir h
      · rw [hsub] at h
        cases h
      · rw [hsub] at h
        cases h
        obtain ⟨cut', hwalk'⟩ := leads_iff.mp hleads
        have heq := (trace_iff.mpr hwalk).symm.trans (trace_iff.mpr hwalk')
        cases heq
        exact congrArg some hid.symm

/-- What a walk leaves of a path starts with the path's first component. -/
theorem head_cut (h : s.Walk mem p cs o cut) : cut.head? = cs.head? ∧ ∀ d ∈ cut, d ∈ cs := by
  induction h with
  | nil p => exact ⟨rfl, fun _ h => h⟩
  | last p => exact ⟨rfl, fun _ h => h⟩
  | top _ => exact ⟨rfl, fun _ h => h⟩
  | file _ _ _ => exact ⟨rfl, fun _ h => h⟩
  | dot _ ih => exact ⟨rfl, List.cons_subset_cons _ ih.2⟩
  | dots _ _ ih => exact ⟨rfl, List.cons_subset_cons _ ih.2⟩
  | missing _ _ _ => exact ⟨rfl, List.cons_subset_cons _ (List.nil_subset _)⟩
  | name _ _ _ _ _ => exact ⟨rfl, List.cons_subset_cons _ (List.nil_subset _)⟩

/-- A second call starts at the same node and sees the components that the first one has left. -/
theorem start_rejoin (h : s.Walk mem p (startPath path) o cut) :
    startNode pwd (rejoin path cut) = startNode pwd path ∧ startPath (rejoin path cut) = cut := by
  obtain ⟨hhead, hsub⟩ := head_cut h
  have hcut : components (joined cut) = cut := components_joined (fun c hc => noSlash_of_mem (hsub c hc))
    (trace_ne_nil (components_ne_nil _) (trace_iff.mpr h))
  unfold startNode rejoin
  by_cases hslash : path.head? = some slash
  · unfold startPath
    simp only [hslash, if_true, List.head?_cons, List.tail_cons]
    exact ⟨trivial, hcut⟩
  · have hrel : (joined cut).head? ≠ some slash := by
      unfold startPath at h hhead hsub
      rw [if_neg hslash] at h hhead hsub
      cases cut with
      | nil => exact Option.some_ne_none _ ∘ Eq.symm
      | cons c cs =>
        by_cases hnil : c = []
        · subst hnil
          have hpath := head_component hslash hhead.symm
          subst hpath
          cases h with
          | last => exact Option.some_ne_none _ ∘ Eq.symm
          | file hc _ _ => exact absurd ⟨rfl, rfl⟩ hc.inner
          | missing hc _ _ => exact absurd ⟨rfl, rfl⟩ hc.inner
          | name hc _ _ _ => exact absurd ⟨rfl, rfl⟩ hc.inner
        · exact head_joined hnil (noSlash_of_mem (hsub c List.mem_cons_self))
    unfold startPath
    simp only [hslash, hrel, if_false]
    exact ⟨trivial, hcut⟩

end

/-- A second `get_path` on the same buffer has the outcome of the first one exactly when the first name of the path is
    the last one, is not found, or is come back to. -/
theorem resolve_again_iff (mem : Zone → Str → Nat → Byte) (s : Store) (pwd : PathT) (path cut : Str) (o : Option PathT)
    (h : resolve mem s pwd path = some (o, cut)) :
    (∃ o' cut', resolve mem s pwd cut = some (o', cut') ∧ o'.map PathT.id = o.map PathT.id) ↔
      s.Recurs mem (startNode pwd path) (startPath path) := by
  rw [resolve_eq] at h
  obtain ⟨⟨o₁, cs⟩, htrace, heq⟩ := Option.map_eq_some_iff.mp h
  obtain ⟨rfl, rfl⟩ : o₁ = o ∧ rejoin path cs = cut := Prod.mk.inj heq
  have hwalk := trace_iff.mp htrace
  obtain ⟨hnode, hpath⟩ : startNode pwd (rejoin path cs) = startNode pwd path ∧ startPath (rejoin path cs) = cs :=
    start_rejoin hwalk
  have hagain : (∃ o' cut', resolve mem s pwd (rejoin path cs) = some (o', cut') ∧ o'.map PathT.id = o₁.map PathT.id) ↔
      SameOutcome mem s (startNode pwd path) cs o₁ := by
    rw [resolve_eq, hnode, hpath]
    constructor
    · rintro ⟨o', cut', hres, ho⟩
      obtain ⟨⟨_, cs'⟩, ht, heq⟩ := Option.map_eq_some_iff.mp hres
      cases heq
      exact ⟨_, _, ht, ho⟩
    · rintro ⟨o', cs', ht, ho⟩
      exact ⟨o', _, by rw [ht]; rfl, ho⟩
  exact hagain.trans (trace_cut hwalk)

/-- The path `d/.` is cut to `d`, which leads to the same directory. -/
theorem resolve_again_iff_sample : ∃ o' cut', resolve (fun _ _ _ => 0) sampleDisk .root (lit "d") = some (o', cut') ∧
    o'.map PathT.id = some 8 := by
  have hrecurs : sampleDisk.Recurs (fun _ _ _ => 0) .root [lit "d", lit "."] := by
    rw [Store.Recurs, if_neg (by decide), if_neg (by decide)]
    exact Or.inr (Or.inr (Or.inr ⟨.node 8 .root, .node 8 .root, by decide +kernel, .dot (.nil _), rfl⟩))
  exact (resolve_again_iff (fun _ _ _ => 0) sampleDisk .root (lit "d/.") (lit "d") (some (.node 8 .root))
    (by decide +kernel)).mpr hrecurs

/-- After `mkdir d` the path `d/x` leads nowhere, and what is left of it leads to `d`. -/
theorem resolve_again_missing : ¬∀ (s : Store) (pwd : PathT) (path cut : Str) (o : Option PathT),
    Reached .all AnyRequest s pwd → resolve (fun _ _ _ => 0) s pwd path = some (o, cut) →
      ∃ o' cut', resolve (fun _ _ _ => 0) s pwd cut = some (o', cut') ∧ o'.map PathT.id = o.map PathT.id := by
  intro hall
  have hdec : ((serveAll [lit "mkdir d"] .root emptyDisk).map fun r => decide
      (resolve (fun _ _ _ => 0) r.2 r.1 (lit "d/x") = some (none, lit "d") ∧
        resolve (fun _ _ _ => 0) r.2 r.1 (lit "d") = some (some (.node 5 .root), lit "d"))) = some true := by
    decide +kernel
  obtain ⟨⟨pwd, s⟩, hrun, hfirst, hsecond⟩ := exists_of_decide hdec
  obtain ⟨o', cut', hres, hid⟩ := hall s pwd _ _ _ (Reached.serveAll (.format emptyDisk_formatted) (by decide)
    (fun _ _ _ _ => trivial) hrun) hfirst
  rw [hsecond] at hres
  cases hres
  cases hid

end MiniFs
