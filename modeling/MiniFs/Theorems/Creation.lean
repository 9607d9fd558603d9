import MiniFs.Theorems.Lookup

/-! # Where a path creates what

`mk_file` and `mk_dir` insert a name into a directory when the path is not found. `get_path` has then cut the path
after its first component that is neither `.` nor `..`, so name and directory depend on the path alone: the name is
cut off that stem, and the directory is what the dots before it lead to. -/

namespace MiniFs
open Interact Memory

/-- The part of `path` up to its first component that is neither `.` nor `..`. -/
def stemFrom : (fuel : Nat) → Str → Str
  | 0, path => path
  | fuel + 1, path =>
    if path.take 2 = lit "./" then path.take 2 ++ stemFrom fuel (path.drop 2)
    else if path.take 3 = lit "../" then path.take 3 ++ stemFrom fuel (path.drop 3)
    else path.takeWhile (· ≠ slash)

/-- What `get_path` leaves of a path. -/
def stem : Str → Str
  | [] => []
  | c :: rest => if c = slash then slash :: stemFrom (rest.length + 1) rest else stemFrom (rest.length + 2) (c :: rest)

/-- The directory and the name of the entry that `mk_file` and `mk_dir` insert. -/
def Store.insertion (s : Store) (pwd : PathT) (path : Str) : Option (Int × Str) :=
  match s.lookup pwd path with
  | (some _, _) => none
  | (none, cut) =>
    match rmName cut with
    | none => none
    | some (name, rest) =>
      match (s.lookup pwd rest).1 with
      | none => none
      | some p => if s.state p.id = some dOccupied then some (p.id, name) else none

/-! ## Leading dots -/

/-- The components `.` and `..` of `pre` lead from the first node to the second. -/
inductive Dots : PathT → Str → PathT → Prop where
  | nil {p : PathT} : Dots p [] p
  | here {p q : PathT} {pre : Str} : Dots p pre q → Dots p (lit "./" ++ pre) q
  | up {p p' q : PathT} {pre : Str} : p.prev = some p' → Dots p' pre q → Dots p (lit "../" ++ pre) q

/-- No `./` is left in front, and a `../` only above the root. -/
structure Undotted (q : PathT) (tail : Str) : Prop where
  here : tail.take 2 ≠ lit "./"
  up : tail.take 3 = lit "../" → q.prev = none

section
variable {s : Store} {p q : PathT} {pre tail path : Str} {fuel : Nat}

theorem exists_dots (fuel : Nat) (hfuel : path.length < fuel) (p : PathT) :
    ∃ pre q tail, path = pre ++ tail ∧ Dots p pre q ∧ Undotted q tail := by
  induction fuel generalizing p path with
  | zero => omega
  | succ fuel ih =>
    by_cases hhere : path.take 2 = lit "./"
    · have hlen : 0 < path.length := List.length_pos_of_ne_nil fun h => by rw [h] at hhere; cases hhere
      obtain ⟨pre, q, tail, heq, hdots, hun⟩ := @ih (path.drop 2) (by rw [List.length_drop]; omega) p
      refine ⟨lit "./" ++ pre, q, tail, ?_, .here hdots, hun⟩
      rw [List.append_assoc, ← heq, ← hhere, List.take_append_drop]
    by_cases hup : path.take 3 = lit "../"
    · cases hprev : p.prev with
      | none => exact ⟨[], p, path, rfl, .nil, hhere, fun _ => hprev⟩
      | some p' =>
        have hlen : 0 < path.length := List.length_pos_of_ne_nil fun h => by rw [h] at hup; cases hup
        obtain ⟨pre, q, tail, heq, hdots, hun⟩ := @ih (path.drop 3) (by rw [List.length_drop]; omega) p'
        refine ⟨lit "../" ++ pre, q, tail, ?_, .up hprev hdots, hun⟩
        rw [List.append_assoc, ← heq, ← hup, List.take_append_drop]
    · exact ⟨[], p, path, rfl, .nil, hhere, fun h => absurd h hup⟩

theorem walk_here : s.walk (fuel + 1) p (lit "./" ++ path) = ((s.walk fuel p path).1, lit "./" ++
    (s.walk fuel p path).2) := by
  have hdrop : (lit "./" ++ path).drop 2 = path := rfl
  have htake : (lit "./" ++ path).take 2 = lit "./" := rfl
  rw [Store.walk, if_neg (by simp [lit]), if_neg (by simp [lit]), if_pos htake, htake, hdrop]

theorem walk_up {p' : PathT} (hprev : p.prev = some p') : s.walk (fuel + 1) p (lit "../" ++ path) =
    ((s.walk fuel p' path).1, lit "../" ++ (s.walk fuel p' path).2) := by
  have hdrop : (lit "../" ++ path).drop 3 = path := rfl
  have htake : (lit "../" ++ path).take 3 = lit "../" := rfl
  rw [Store.walk, if_neg (by simp [lit]), if_neg (by simp [lit]), if_neg (by simp [lit]), if_pos htake, htake, hdrop, hprev]

/-- Above the root the walk ends. -/
theorem walk_stuck (hprev : p.prev = none) : s.walk (fuel + 1) p (lit "../" ++ path) = (none, lit "../" ++ path) := by
  have htake : (lit "../" ++ path).take 3 = lit "../" := rfl
  rw [Store.walk, if_neg (by simp [lit]), if_neg (by simp [lit]), if_neg (by simp [lit]), if_pos htake, hprev]

theorem stemFrom_here : stemFrom (fuel + 1) (lit "./" ++ path) = lit "./" ++ stemFrom fuel path := by
  have hdrop : (lit "./" ++ path).drop 2 = path := rfl
  have htake : (lit "./" ++ path).take 2 = lit "./" := rfl
  rw [stemFrom, if_pos htake, htake, hdrop]

theorem stemFrom_up : stemFrom (fuel + 1) (lit "../" ++ path) = lit "../" ++ stemFrom fuel path := by
  have hdrop : (lit "../" ++ path).drop 3 = path := rfl
  have htake : (lit "../" ++ path).take 3 = lit "../" := rfl
  rw [stemFrom, if_neg (by simp [lit]), if_pos htake, htake, hdrop]

/-- The walk along leading dots does not look at the store. -/
theorem Dots.walk (h : Dots p pre q) (hfuel : (pre ++ tail).length < fuel) :
    s.walk fuel p (pre ++ tail) = ((s.walk (tail.length + 1) q tail).1, pre ++ (s.walk (tail.length + 1) q tail).2) := by
  induction h generalizing fuel with
  | nil => exact s.walk_fuel hfuel (Nat.lt_succ_self _)
  | @here p q pre h ih =>
    obtain ⟨fuel, rfl⟩ := Nat.exists_eq_succ_of_ne_zero (by omega : fuel ≠ 0)
    have hlen : (pre ++ tail).length < fuel := by
      rw [List.append_assoc, List.length_append] at hfuel
      have : (lit "./").length = 2 := rfl
      omega
    rw [List.append_assoc, walk_here, ih hlen, List.append_assoc]
  | @up p p' q pre hprev h ih =>
    obtain ⟨fuel, rfl⟩ := Nat.exists_eq_succ_of_ne_zero (by omega : fuel ≠ 0)
    have hlen : (pre ++ tail).length < fuel := by
      rw [List.append_assoc, List.length_append] at hfuel
      have : (lit "../").length = 3 := rfl
      omega
    rw [List.append_assoc, walk_up hprev, ih hlen, List.append_assoc]

/-- Leading dots end in a slash, and without it they lead to the same node. -/
theorem Dots.ends (h : Dots p pre q) : pre = [] ∧ q = p ∨ ∃ pre', pre = 46 :: pre' ++ [slash] ∧
    ∀ s : Store, (s.walk ((46 :: pre').length + 1) p (46 :: pre')).1 = some q := by
  induction h with
  | nil => exact Or.inl ⟨rfl, rfl⟩
  | @here p q pre h ih =>
    refine Or.inr ?_
    rcases ih with ⟨rfl, rfl⟩ | ⟨pre', rfl, hwalk⟩
    · exact ⟨[], rfl, fun s => rfl⟩
    · refine ⟨slash :: 46 :: pre', rfl, fun s => ?_⟩
      have hone : Dots p (lit "./" ++ []) p := .here .nil
      have hwalk' := @Dots.walk s _ _ _ (46 :: pre') _ hone (Nat.lt_succ_self _)
      exact (congrArg Prod.fst hwalk').trans (hwalk s)
  | @up p p' q pre hprev h ih =>
    refine Or.inr ?_
    rcases ih with ⟨rfl, rfl⟩ | ⟨pre', rfl, hwalk⟩
    · refine ⟨[46], rfl, fun s => ?_⟩
      show (s.walk (2 + 1) p (lit "..")).1 = _
      rw [Store.walk, if_neg (by decide), if_pos rfl]
      exact hprev
    · refine ⟨46 :: slash :: 46 :: pre', rfl, fun s => ?_⟩
      have hone : Dots p (lit "../" ++ []) p' := .up hprev .nil
      have hwalk' := @Dots.walk s _ _ _ (46 :: pre') _ hone (Nat.lt_succ_self _)
      exact (congrArg Prod.fst hwalk').trans (hwalk s)

theorem Dots.stemFrom_eq (h : Dots p pre q) (hfuel : pre.length < fuel) :
    ∃ fuel', stemFrom fuel (pre ++ tail) = pre ++ stemFrom (fuel' + 1) tail := by
  induction h generalizing fuel with
  | nil =>
    obtain ⟨fuel, rfl⟩ := Nat.exists_eq_succ_of_ne_zero (by omega : fuel ≠ 0)
    exact ⟨fuel, rfl⟩
  | @here p q pre h ih =>
    obtain ⟨fuel, rfl⟩ := Nat.exists_eq_succ_of_ne_zero (by omega : fuel ≠ 0)
    have hlen : pre.length < fuel := by
      rw [List.length_append] at hfuel
      have : (lit "./").length = 2 := rfl
      omega
    obtain ⟨fuel', heq⟩ := ih hlen
    exact ⟨fuel', by rw [List.append_assoc, stemFrom_here, heq, List.append_assoc]⟩
  | @up p p' q pre hprev h ih =>
    obtain ⟨fuel, rfl⟩ := Nat.exists_eq_succ_of_ne_zero (by omega : fuel ≠ 0)
    have hlen : pre.length < fuel := by
      rw [List.length_append] at hfuel
      have : (lit "../").length = 3 := rfl
      omega
    obtain ⟨fuel', heq⟩ := ih hlen
    exact ⟨fuel', by rw [List.append_assoc, stemFrom_up, heq, List.append_assoc]⟩

/-! ## The failing lookup -/

theorem not_mem_takeWhile (path : Str) : slash ∉ path.takeWhile (· ≠ slash) := fun h => by
  have := List.mem_takeWhile_imp h
  simp at this

theorem exists_last_slash (h : slash ∈ path) : ∃ t name, path = t ++ slash :: name ∧ slash ∉ name := by
  obtain ⟨as, bs, heq, has⟩ := List.eq_append_cons_of_mem (List.mem_reverse.mpr h)
  refine ⟨bs.reverse, as.reverse, ?_, fun hin => has (List.mem_reverse.mp hin)⟩
  rw [← List.reverse_reverse path, heq, List.reverse_append, List.reverse_cons, List.append_assoc]
  rfl

/-- `rm_name` cuts at the last slash, except at the one that a path starts with. -/
theorem rmName_append {t name : Str} (ht : t ≠ []) (hname : slash ∉ name) : rmName (t ++ slash :: name) = some (name, t) := by
  have hpos := List.length_pos_of_ne_nil ht
  have hfrom : ∀ i, t.length ≤ i → i < (t ++ slash :: name).length → rmNameFrom (t ++ slash :: name) i = (name, t) := by
    intro i hi hlt
    induction i with
    | zero => omega
    | succ i ih =>
      unfold rmNameFrom
      by_cases heq : i + 1 = t.length
      · have hget : (t ++ slash :: name).getD (i + 1) 0 = slash := by simp [heq, List.getD_eq_getElem?_getD]
        have hdrop : (t ++ slash :: name).drop (i + 2) = name := by
          rw [show i + 2 = t.length + 1 by omega, List.drop_append]
          simp
        rw [if_pos hget, hdrop, heq, List.take_left]
      · have hget : (t ++ slash :: name).getD (i + 1) 0 ≠ slash := fun h => by
          rw [List.length_append, List.length_cons] at hlt
          have hidx : i + 1 - t.length - 1 < name.length := by omega
          rw [List.getD_eq_getElem?_getD, List.getElem?_append_right (by omega), List.getElem?_cons, if_neg (by omega),
            List.getElem?_eq_getElem hidx, Option.getD_some] at h
          exact hname (h ▸ List.getElem_mem hidx)
        rw [if_neg hget]
        exact ih (by omega) (by omega)
  unfold rmName
  rw [if_neg (by simp), hfrom _ (by simp) (by simp)]

theorem rmName_of_not_mem {c : Byte} {rest : Str} (h : slash ∉ rest) : rmName (c :: rest) = some (c :: rest, []) := by
  have hfrom : ∀ i, i ≤ rest.length → rmNameFrom (c :: rest) i = (c :: rest, []) := by
    intro i hi
    induction i with
    | zero => rfl
    | succ i ih =>
      have hidx : i < rest.length := by omega
      have hget : (c :: rest).getD (i + 1) 0 ≠ slash := fun heq => by
        rw [List.getD_cons_succ, List.getD_eq_getElem?_getD, List.getElem?_eq_getElem hidx, Option.getD_some] at heq
        exact h (heq ▸ List.getElem_mem hidx)
      unfold rmNameFrom
      rw [if_neg hget]
      exact ih (by omega)
  unfold rmName
  rw [if_neg nofun]
  exact congrArg some (hfrom _ (by simp))

/-- A path that the walk takes as a name: it is no dots and starts with none. -/
structure Plain (path : Str) : Prop where
  nil : path ≠ []
  dot : path ≠ lit "."
  dots : path ≠ lit ".."
  here : path.take 2 ≠ lit "./"
  up : path.take 3 ≠ lit "../"

theorem Plain.walk (h : Plain path) : s.walk (fuel + 1) q path =
    if s.state q.id ≠ some dOccupied then (none, path)
    else match s.lookupSub q.id (path.takeWhile (· ≠ slash)) with
      | none => (none, path.takeWhile (· ≠ slash))
      | some id =>
        if (path.takeWhile (· ≠ slash)).length < path.length then
          ((s.walk fuel (.node id q) (path.drop ((path.takeWhile (· ≠ slash)).length + 1))).1, path.takeWhile (· ≠ slash))
        else (some (.node id q), path.takeWhile (· ≠ slash)) := by
  rw [Store.walk]
  exact (if_neg (not_or.mpr ⟨h.nil, h.dot⟩)).trans ((if_neg h.dots).trans ((if_neg h.here).trans (if_neg h.up)))

theorem Plain.walk_snd (h : Plain path) (hq : s.state q.id = some dOccupied) :
    (s.walk (fuel + 1) q path).2 = path.takeWhile (· ≠ slash) := by
  rw [h.walk, if_neg (not_not.mpr hq)]
  split
  · rfl
  · split <;> rfl

theorem Plain.of_append {t name : Str} (h : Plain (t ++ slash :: name)) : t = [] ∨ Plain t := by
  by_cases hnil : t = []
  · exact Or.inl hnil
  refine Or.inr ⟨hnil, ?_, ?_, fun heq => h.here ?_, fun heq => h.up ?_⟩
  · rintro rfl
    exact h.here rfl
  · rintro rfl
    exact h.up rfl
  · have hlen : 2 ≤ t.length := by
      have := congrArg List.length heq
      rw [List.length_take] at this
      have : (lit "./").length = 2 := rfl
      omega
    rw [List.take_append_of_le_length hlen, heq]
  · have hlen : 3 ≤ t.length := by
      have := congrArg List.length heq
      rw [List.length_take] at this
      have : (lit "../").length = 3 := rfl
      omega
    rw [List.take_append_of_le_length hlen, heq]

/-- A walk that fails leaves the stem of the path, or it fails on the way to every name that the path could have. -/
theorem walk_none (h : (s.walk (path.length + 1) p path).1 = none) :
    (∃ pre q comp, Dots p pre q ∧ slash ∉ comp ∧ (s.walk (path.length + 1) p path).2 = pre ++ comp ∧
      ∀ fuel, path.length < fuel → stemFrom fuel path = pre ++ comp) ∨
    (∃ t name, path = t ++ slash :: name ∧ slash ∉ name ∧ (s.walk (path.length + 1) p path).2 = path ∧
      ∀ x, (s.walk (t.length + 1) p t).1 = some x → s.state x.id ≠ some dOccupied) := by
  obtain ⟨pre, q, tail, rfl, hdots, hun⟩ := exists_dots (path.length + 1) (Nat.lt_succ_self _) p
  rw [hdots.walk (Nat.lt_succ_self _)] at h ⊢
  dsimp only at h ⊢
  by_cases hup : tail.take 3 = lit "../"
  · -- The dots lead above the root.
    have hprev := hun.up hup
    obtain ⟨r, rfl⟩ : ∃ r, tail = lit "../" ++ r := ⟨tail.drop 3, by rw [← hup, List.take_append_drop]⟩
    rw [walk_stuck hprev]
    refine Or.inr ?_
    by_cases hr : slash ∈ r
    · obtain ⟨t, name, rfl, hname⟩ := exists_last_slash hr
      refine ⟨pre ++ (lit "../" ++ t), name, by simp only [List.append_assoc], hname, rfl, fun x hx => ?_⟩
      rw [hdots.walk (Nat.lt_succ_self _), walk_stuck hprev] at hx
      cases hx
    · refine ⟨pre ++ lit "..", r, ?_, hr, rfl, fun x hx => ?_⟩
      · rw [List.append_assoc]
        rfl
      · rw [hdots.walk (Nat.lt_succ_self _), Store.walk, if_neg (by decide), if_pos rfl, hprev] at hx
        cases hx
  have hstem : ∀ fuel, (pre ++ tail).length < fuel → stemFrom fuel (pre ++ tail) = pre ++ tail.takeWhile (· ≠ slash) := by
    intro fuel hfuel
    rw [List.length_append] at hfuel
    obtain ⟨fuel', heq⟩ := @Dots.stemFrom_eq _ _ _ tail _ hdots (show pre.length < fuel by omega)
    rw [heq, stemFrom, if_neg hun.here, if_neg hup]
  by_cases hdot : tail = [] ∨ tail = lit "."
  · rw [Store.walk, if_pos hdot] at h
    cases h
  by_cases hdd : tail = lit ".."
  · subst hdd
    exact Or.inl ⟨pre, q, lit "..", hdots, by decide, rfl, hstem⟩
  have hplain : Plain tail := ⟨fun h => hdot (Or.inl h), fun h => hdot (Or.inr h), hdd, hun.here, hup⟩
  by_cases hq : s.state q.id = some dOccupied
  · exact Or.inl ⟨pre, q, _, hdots, not_mem_takeWhile tail, by rw [hplain.walk_snd hq], hstem⟩
  have hwalk : ∀ (fuel : Nat) (t : Str), Plain t → s.walk (fuel + 1) q t = (none, t) := fun fuel t ht => by
    rw [ht.walk, if_pos hq]
  rw [hwalk _ _ hplain]
  by_cases hslash : slash ∈ tail
  · obtain ⟨t, name, rfl, hname⟩ := exists_last_slash hslash
    refine Or.inr ⟨pre ++ t, name, by rw [List.append_assoc], hname, rfl, fun x hx => ?_⟩
    rw [hdots.walk (Nat.lt_succ_self _)] at hx
    rcases hplain.of_append with rfl | ht
    · cases hx
      exact hq
    · rw [hwalk _ _ ht] at hx
      cases hx
  · refine Or.inl ⟨pre, q, tail, hdots, hslash, rfl, fun fuel hfuel => ?_⟩
    rw [hstem fuel hfuel, takeWhile_of_not_mem hslash]

section
variable {pwd : PathT} {c : Byte} {rest : Str}

theorem lookup_slash : s.lookup pwd (slash :: rest) =
    ((s.walk (rest.length + 1) .root rest).1, slash :: (s.walk (rest.length + 1) .root rest).2) := by
  unfold Store.lookup
  dsimp only
  rw [if_pos rfl]

theorem lookup_cons (hc : c ≠ slash) : s.lookup pwd (c :: rest) = s.walk ((c :: rest).length + 1) pwd (c :: rest) := by
  unfold Store.lookup
  dsimp only
  rw [if_neg hc]

theorem stem_slash : stem (slash :: rest) = slash :: stemFrom (rest.length + 1) rest := by
  rw [stem, if_pos rfl]

theorem stem_cons (hc : c ≠ slash) : stem (c :: rest) = stemFrom ((c :: rest).length + 1) (c :: rest) := by
  rw [stem, if_neg hc]
  rfl

theorem stemFrom_ne_nil {fuel : Nat} (hc : c ≠ slash) : stemFrom (fuel + 1) (c :: rest) ≠ [] := by
  rw [stemFrom]
  split
  · simp
  split
  · simp
  · rw [List.takeWhile_cons, if_pos (by simpa using hc)]
    exact List.cons_ne_nil _ _

/-- A lookup that fails leaves the stem, and the directory before the stem's name is found in any store; or no
    directory is found before the name that is left. -/
theorem lookup_none (h : (s.lookup pwd path).1 = none) :
    (∃ name rest q, (s.lookup pwd path).2 = stem path ∧ rmName (stem path) = some (name, rest) ∧
      ∀ s' : Store, (s'.lookup pwd rest).1 = some q) ∨
    (∃ name rest, rmName (s.lookup pwd path).2 = some (name, rest) ∧
      ∀ x, (s.lookup pwd rest).1 = some x → s.state x.id ≠ some dOccupied) := by
  cases path with
  | nil => cases h
  | cons c path =>
    by_cases hc : c = slash
    · subst hc
      rw [lookup_slash] at h
      rcases walk_none h with ⟨pre, q, comp, hdots, hcomp, heq, hstem⟩ | ⟨t, name, heq, hname, hwhole, hno⟩
      · have hst : stem (slash :: path) = slash :: (pre ++ comp) := by rw [stem_slash, hstem _ (Nat.lt_succ_self _)]
        have hleft : (s.lookup pwd (slash :: path)).2 = stem (slash :: path) := by rw [lookup_slash, hst, heq]
        refine Or.inl ?_
        rcases hdots.ends with ⟨rfl, rfl⟩ | ⟨pre', rfl, hwalk⟩
        · exact ⟨_, [], pwd, hleft, by rw [hst, List.nil_append, rmName_of_not_mem hcomp], fun _ => rfl⟩
        · refine ⟨comp, slash :: 46 :: pre', q, hleft, ?_, fun s' => by rw [lookup_slash, hwalk s']⟩
          have happ : slash :: (46 :: pre' ++ [slash] ++ comp) = (slash :: 46 :: pre') ++ slash :: comp := by simp
          rw [hst, happ, rmName_append (List.cons_ne_nil _ _) hcomp]
      · refine Or.inr ⟨name, slash :: t, ?_, fun x hx => ?_⟩
        · rw [lookup_slash, hwhole, heq, ← List.cons_append, rmName_append (List.cons_ne_nil _ _) hname]
        · rw [lookup_slash] at hx
          exact hno x hx
    · rw [lookup_cons hc] at h ⊢
      rcases walk_none h with ⟨pre, q, comp, hdots, hcomp, heq, hstem⟩ | ⟨t, name, heq, hname, hwhole, hno⟩
      · have hst : stem (c :: path) = pre ++ comp := by rw [stem_cons hc, hstem _ (Nat.lt_succ_self _)]
        have hne : pre ++ comp ≠ [] := hst ▸ stem_cons hc ▸ stemFrom_ne_nil hc
        refine Or.inl ?_
        rw [hst]
        rcases hdots.ends with ⟨rfl, rfl⟩ | ⟨pre', rfl, hwalk⟩
        · obtain ⟨a, comp, rfl⟩ := List.exists_cons_of_ne_nil hne
          have hcomp' : slash ∉ comp := fun hin => hcomp (List.mem_cons_of_mem _ hin)
          exact ⟨_, [], q, heq, by rw [List.nil_append, rmName_of_not_mem hcomp'], fun _ => rfl⟩
        · refine ⟨comp, 46 :: pre', q, heq, ?_, fun s' => by rw [lookup_cons (by decide), hwalk s']⟩
          have happ : 46 :: pre' ++ [slash] ++ comp = (46 :: pre') ++ slash :: comp := by simp
          rw [happ, rmName_append (List.cons_ne_nil _ _) hcomp]
      · refine Or.inr ?_
        cases t with
        | nil => exact absurd (List.cons.inj heq).1 hc
        | cons a t =>
          obtain ⟨rfl, -⟩ := List.cons.inj heq
          refine ⟨name, c :: t, ?_, fun x hx => ?_⟩
          · rw [hwhole, heq, rmName_append (List.cons_ne_nil _ _) hname]
          · rw [lookup_cons hc] at hx
            exact hno x hx

/-- The name that is inserted and its directory depend on the path alone. -/
theorem insertion_eq {d : Int} {name : Str} (h : s.insertion pwd path = some (d, name)) :
    ∃ rest q, rmName (stem path) = some (name, rest) ∧ (∀ s' : Store, (s'.lookup pwd rest).1 = some q) ∧ q.id = d ∧
      s.state d = some dOccupied := by
  unfold Store.insertion at h
  cases hl : s.lookup pwd path with
  | mk r cut =>
    rw [hl] at h
    cases r with
    | some p => cases h
    | none =>
      dsimp only at h
      rcases @lookup_none s path pwd (by rw [hl]) with ⟨nm, rest, q, hcut, hrm, hq⟩ | ⟨nm, rest, hrm, hno⟩
      · rw [hl] at hcut
        replace hcut : cut = stem path := hcut
        rw [hcut, hrm] at h
        dsimp only at h
        rw [hq s] at h
        dsimp only at h
        split at h
        · rename_i hstate
          cases h
          exact ⟨rest, q, hrm, hq, rfl, hstate⟩
        · cases h
      · rw [hl] at hrm
        rw [hrm] at h
        dsimp only at h
        split at h
        · cases h
        · rename_i x hx
          rw [if_neg (hno x hx)] at h
          cases h

/-! ## The characters of the cut path -/

theorem walk_prefix {fuel : Nat} : (s.walk fuel p path).2 <+: path := by
  induction fuel generalizing p path with
  | zero => exact List.prefix_rfl
  | succ fuel ih =>
    have hmore : ∀ (n : Nat) (p' : PathT), path.take n ++ (s.walk fuel p' (path.drop n)).2 <+: path := by
      intro n p'
      have h := (List.prefix_append_right_inj (path.take n)).mpr (@ih p' (path.drop n))
      rwa [List.take_append_drop] at h
    unfold Store.walk
    split
    · exact List.prefix_rfl
    split
    · exact List.prefix_rfl
    split
    · exact hmore 2 _
    split
    · cases hprev : p.prev with
      | none => exact List.prefix_rfl
      | some p' => exact hmore 3 p'
    split
    · exact List.prefix_rfl
    dsimp only
    split
    · exact List.takeWhile_prefix _
    split <;> exact List.takeWhile_prefix _

theorem prefix_lookup : (s.lookup pwd path).2 <+: path := by
  cases path with
  | nil => exact List.prefix_rfl
  | cons c rest =>
    by_cases hc : c = slash
    · subst hc
      rw [lookup_slash]
      exact (List.prefix_cons_inj _).mpr walk_prefix
    · rw [lookup_cons hc]
      exact walk_prefix

theorem lookup_nulFree (h : NulFree path) : NulFree (s.lookup pwd path).2 := fun c hc => h c (prefix_lookup.mem hc)

theorem rmName_sub {name : Str} (hrm : rmName path = some (name, rest)) : name <:+ path ∧ rest <+: path := by
  have hfrom : ∀ i, (rmNameFrom path i).1 <:+ path ∧ (rmNameFrom path i).2 <+: path := by
    intro i
    induction i with
    | zero => exact ⟨List.suffix_rfl, List.nil_prefix⟩
    | succ i ih =>
      unfold rmNameFrom
      split
      · exact ⟨List.drop_suffix _ _, List.take_prefix _ _⟩
      · exact ih
  unfold rmName at hrm
  split at hrm
  · cases hrm
  · obtain ⟨rfl, rfl⟩ := Prod.mk.inj (Option.some.inj hrm)
    exact hfrom _

theorem length_insertion {d : Int} {name : Str} (h : s.insertion pwd path = some (d, name)) : name.length ≤ path.length := by
  unfold Store.insertion at h
  split at h
  · cases h
  rename_i cut hl
  have hcut := (@prefix_lookup s path pwd).length_le
  rw [hl] at hcut
  split at h
  · cases h
  rename_i nm rest hrm
  split at h
  · cases h
  split at h
  · cases h
    exact (rmName_sub hrm).1.length_le.trans hcut
  · cases h

end

end

end MiniFs
