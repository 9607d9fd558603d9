import MiniFs.Store

/-! # The commands that only look

`list`, `cat`, `change` and `get_path` neither allocate nor free nor write a zone, whatever the disk holds. -/

namespace MiniFs
open Interact Memory

/-- The operations that leave the store alone. -/
def ReadOp : FsOp → Prop
  | .getFreeId _ | .setFreeId _ | .writeZone .. => False
  | _ => True

/-- A program that only looks. -/
abbrev ReadOnly {α : Type} (p : FsM α) : Prop := p.Only ReadOp

section
variable {P : Policy} {α : Type} {s : Store}

/-- A program that only looks leaves the store as it is. -/
theorem ReadOnly.wlp {p : FsM α} (h : ReadOnly p) {log : List Msg} :
    wlp (fsSem P) p (fun _ t => t.1 = s) (s, log) := by
  refine Prog.Only.wlp (I := fun t : Store × List Msg => t.1 = s) h ?_ ?_ ?_ rfl
  · rintro e t r t' he ⟨o', ho', heq⟩ ht
    obtain ⟨⟨a, s'⟩, rfl, hm⟩ := Option.map_eq_some_iff.mp heq.symm
    obtain ⟨rfl, rfl⟩ := Prod.mk.inj hm
    have hkeep : s' = t.1 := by
      cases e with
      | getState id =>
        obtain ⟨b, -, hb⟩ := Option.map_eq_some_iff.mp (show _ = some (_, _) from (Eq.symm ho'))
        exact (Prod.mk.inj hb).2.symm
      | getFreeId b => exact he.elim
      | setFreeId id => exact he.elim
      | readZone id => exact (Prod.mk.inj (Option.some.inj ho')).2
      | writeZone id z => exact he.elim
      | time =>
        obtain ⟨t, -, ht⟩ := ho'
        exact (Prod.mk.inj (Option.some.inj ht)).2
      | stack pDir name =>
        obtain ⟨above, -, ht⟩ := ho'
        exact (Prod.mk.inj (Option.some.inj ht)).2
      | unset =>
        obtain ⟨v, ht⟩ := ho'
        exact (Prod.mk.inj (Option.some.inj ht)).2
    exact hkeep.trans ht
  · rintro m t t' heq ht
    cases Option.some.inj heq
    exact ht
  · rintro n t m t' ⟨str, -, -, heq⟩ ht
    obtain ⟨-, rfl⟩ := Prod.mk.inj (Option.some.inj heq)
    exact ht

/-! ## Operations and messages -/

theorem readOnly_getState (id : Int) : ReadOnly (Fs.getState id) := ⟨trivial, fun _ => trivial⟩

theorem readOnly_readZone (id : Int) : ReadOnly (Fs.readZone id) := ⟨trivial, fun _ => trivial⟩

theorem readOnly_unset : ReadOnly Fs.unset := ⟨trivial, fun _ => trivial⟩

theorem readOnly_orFault (o : Option α) : ReadOnly (orFault o) := by
  cases o <;> trivial

theorem readOnly_getMsgStr : ReadOnly getMsgStr :=
  Prog.Only.bind (p := getMsg) (fun _ => trivial) fun o => readOnly_orFault o

/-! ## Paths -/

theorem readOnly_getSubPath (parent : PathT) (name : Str) : ReadOnly (getSubPath parent name) := by
  refine .bind (readOnly_readZone _) fun z => ?_
  cases z with
  | none => trivial
  | some z =>
    refine ⟨trivial, fun above => ?_⟩
    dsimp only [Prog.bind]
    split
    · trivial
    · split <;> trivial

theorem readOnly_getPathFromRoot (fuel : Nat) (curr : PathT) (path : Str) : ReadOnly (getPathFromRoot fuel curr path) := by
  induction fuel generalizing curr path with
  | zero => trivial
  | succ fuel ih =>
    unfold getPathFromRoot
    split
    · trivial
    split
    · trivial
    split
    · exact .bind (ih _ _) fun _ => trivial
    split
    · split
      · trivial
      · exact .bind (ih _ _) fun _ => trivial
    refine .bind (readOnly_getState _) fun b => ?_
    split
    · trivial
    refine .bind (readOnly_getSubPath _ _) fun sub => ?_
    cases sub with
    | none => trivial
    | some sub =>
      dsimp only
      split
      · exact .bind (ih _ _) fun _ => trivial
      · trivial

theorem readOnly_getPathFromPwd (fuel : Nat) (curr : PathT) (path : Str) : ReadOnly (getPathFromPwd fuel curr path) := by
  induction fuel generalizing curr path with
  | zero => trivial
  | succ fuel ih =>
    unfold getPathFromPwd
    split
    · trivial
    split
    · trivial
    split
    · exact .bind (ih _ _) fun _ => trivial
    split
    · split
      · trivial
      · exact .bind (readOnly_getPathFromRoot _ _ _) fun _ => trivial
    refine .bind (readOnly_getState _) fun b => ?_
    split
    · trivial
    · exact readOnly_getPathFromRoot _ _ _

theorem readOnly_getPath (pwd : PathT) (path : Str) : ReadOnly (getPath pwd path) := by
  unfold getPath
  split
  · exact readOnly_getPathFromPwd _ _ _
  · split
    · exact .bind (readOnly_getPathFromRoot _ _ _) fun _ => trivial
    · exact readOnly_getPathFromPwd _ _ _

/-! ## Listings -/

theorem readOnly_whileUsed {get : Nat → Int} {f : Int → FsM Unit} (hf : ∀ id, ReadOnly (f id)) (n i : Nat) :
    ReadOnly (whileUsed get f n i) := by
  induction n generalizing i with
  | zero => trivial
  | succ n ih =>
    unfold whileUsed
    split
    · trivial
    · exact .bind (hf _) fun _ => ih _

theorem readOnly_getLsLenCont (fuel : Nat) (id : Int) : ReadOnly (getLsLenCont fuel id) := by
  induction fuel generalizing id with
  | zero => trivial
  | succ fuel ih =>
    refine .bind (readOnly_readZone _) fun z => ?_
    cases z with
    | none => exact readOnly_unset
    | some z =>
      dsimp only
      split
      · exact .bind (ih _) fun _ => trivial
      · trivial

theorem readOnly_getLsLen (id : Int) : ReadOnly (getLsLen id) := by
  refine .bind (readOnly_getState _) fun b => ?_
  split
  · trivial
  split
  · refine .bind (readOnly_readZone _) fun z => ?_
    cases z with
    | none => exact readOnly_unset
    | some z =>
      dsimp only
      split
      · exact .bind (readOnly_getLsLenCont _ _) fun _ => trivial
      · trivial
  · trivial

theorem readOnly_sizeSubs {sizeOf : Zone → FsM Int} (h : ∀ z, ReadOnly (sizeOf z)) (L : Layout) (zone : Zone) (n i : Nat)
    (size : Int) : ReadOnly (sizeSubs sizeOf L zone n i size) := by
  induction n generalizing i size with
  | zero => trivial
  | succ n ih =>
    unfold sizeSubs
    split
    · trivial
    refine .bind (readOnly_getState _) fun b => ?_
    split
    · refine .bind (readOnly_readZone _) fun z => ?_
      cases z with
      | none => trivial
      | some z => exact ih _ _
    refine .bind (readOnly_getState _) fun b' => ?_
    split
    · refine .bind (readOnly_readZone _) fun z => ?_
      cases z with
      | none => trivial
      | some z => exact .bind (h z) fun _ => ih _ _
    · trivial

theorem readOnly_getSizeAt (fuel : Nat) (L : Layout) (zone : Zone) : ReadOnly (getSizeAt fuel L zone) := by
  induction fuel generalizing L zone with
  | zero => trivial
  | succ fuel ih =>
    refine .bind (readOnly_sizeSubs (fun z => ih dentry z) L zone _ _ _) fun r => ?_
    cases r with
    | error v => trivial
    | ok size =>
      dsimp only
      split
      · refine .bind (readOnly_readZone _) fun z => ?_
        cases z with
        | none => trivial
        | some z => exact .bind (ih _ _) fun _ => trivial
      · trivial

theorem readOnly_showSubNameAt {cont : Int → FsM Str} (h : ∀ id, ReadOnly (cont id)) (L : Layout) (buffer : Str)
    (pId id : Int) : ReadOnly (showSubNameAt L cont buffer pId id) := by
  refine .bind (readOnly_readZone _) fun z => ?_
  cases z with
  | none => trivial
  | some z =>
    dsimp only
    split
    · exact .bind (readOnly_orFault _) fun _ => trivial
    · split
      · exact h _
      · trivial

theorem readOnly_showSubNameCont (fuel : Nat) (buffer : Str) (pId id : Int) :
    ReadOnly (showSubNameCont fuel buffer pId id) := by
  induction fuel generalizing pId with
  | zero => trivial
  | succ fuel ih => exact readOnly_showSubNameAt (fun p => ih p) _ _ _ _

theorem readOnly_showSubName (buffer : Str) (pId id : Int) : ReadOnly (showSubName buffer pId id) :=
  readOnly_showSubNameAt (fun p => readOnly_showSubNameCont _ _ p _) _ _ _ _

theorem readOnly_showFile (id : Int) : ReadOnly (showFile id) := by
  refine .bind readOnly_getMsgStr fun m => ?_
  split
  · refine .bind (readOnly_readZone _) fun z => ?_
    cases z with
    | none => trivial
    | some z =>
      refine .bind (readOnly_orFault _) fun b => .bind (readOnly_showSubName _ _ _) fun _ => trivial
  · trivial

theorem readOnly_showDir (id : Int) : ReadOnly (showDir id) := by
  refine .bind readOnly_getMsgStr fun m => ?_
  split
  · refine .bind (readOnly_readZone _) fun z => ?_
    cases z with
    | none => trivial
    | some z =>
      refine .bind (readOnly_getSizeAt _ _ _) fun size => .bind (readOnly_orFault _) fun b => ?_
      exact .bind (readOnly_showSubName _ _ _) fun _ => trivial
  · trivial

theorem readOnly_catEntry (id : Int) : ReadOnly (catEntry id) := by
  refine .bind (readOnly_getState _) fun b => ?_
  split
  · exact readOnly_showDir _
  refine .bind (readOnly_getState _) fun b' => ?_
  split
  · exact readOnly_showFile _
  · refine .bind readOnly_getMsgStr fun m => ?_
    split
    · exact .bind (p := sendMsg (lit "\n")) trivial fun _ => .bind (readOnly_getState _) fun _ => trivial
    · exact .bind (readOnly_getState _) fun _ => trivial

theorem readOnly_catDir (id : Int) : ReadOnly (catDir id) := by
  refine .bind (readOnly_readZone _) fun z => ?_
  cases z with
  | none => trivial
  | some z =>
    refine .bind (readOnly_whileUsed readOnly_catEntry _ _) fun all => ?_
    split
    · split
      · refine .bind (readOnly_readZone _) fun z => ?_
        cases z <;> trivial
      · trivial
    · trivial

theorem readOnly_catData (id : Int) : ReadOnly (catData id) := by
  refine .bind readOnly_getMsgStr fun m => ?_
  split
  · refine .bind (readOnly_readZone _) fun z => ?_
    cases z <;> trivial
  · trivial

theorem readOnly_catIdxAt {f : Int → FsM Unit} (h : ∀ id, ReadOnly (f id)) (id : Int) : ReadOnly (catIdxAt f id) := by
  refine .bind (readOnly_readZone _) fun z => ?_
  cases z with
  | none => trivial
  | some z => exact .bind (readOnly_whileUsed h _ _) fun _ => trivial

theorem readOnly_catIdx (id : Int) (flag : Bool) : ReadOnly (catIdx id flag) := by
  cases flag with
  | false => exact readOnly_catIdxAt readOnly_catData id
  | true => exact readOnly_catIdxAt (readOnly_catIdxAt readOnly_catData) id

theorem readOnly_catFile (id : Int) : ReadOnly (catFile id) := by
  refine .bind (readOnly_readZone _) fun z => ?_
  cases z with
  | none => trivial
  | some z =>
    refine .bind (readOnly_whileUsed readOnly_catData _ _) fun b => ?_
    split
    · refine .bind (readOnly_whileUsed (fun id => readOnly_catIdx id false) _ _) fun b => ?_
      split
      · exact .bind (readOnly_whileUsed (fun id => readOnly_catIdx id true) _ _) fun _ => trivial
      · trivial
    · trivial

/-! ## Commands -/

theorem readOnly_list (pwd : PathT) (path : Str) : ReadOnly (list pwd path) := by
  refine .bind (readOnly_getPath _ _) fun r => ?_
  obtain ⟨r, cut⟩ := r
  cases r with
  | none => trivial
  | some p =>
    refine .bind (p := sendMsg (lit "2")) trivial fun _ => .bind readOnly_getMsgStr fun m => ?_
    split
    · refine .bind (readOnly_getLsLen _) fun len => .bind (readOnly_orFault _) fun b => ?_
      refine .bind (p := sendStr b) trivial fun _ => .bind (readOnly_getState _) fun state => ?_
      split
      · exact .bind (readOnly_showFile _) fun _ => trivial
      split
      · exact .bind (readOnly_catDir _) fun _ => trivial
      · exact .bind (readOnly_getState _) fun _ => trivial
    · trivial

theorem readOnly_cat (pwd : PathT) (path : Str) : ReadOnly (cat pwd path) := by
  refine .bind (readOnly_getPath _ _) fun r => ?_
  obtain ⟨r, cut⟩ := r
  cases r with
  | none => trivial
  | some p =>
    refine .bind (readOnly_getState _) fun state => ?_
    split
    · refine .bind (readOnly_readZone _) fun z => ?_
      cases z with
      | none => trivial
      | some z =>
        refine .bind (p := sendMsg (lit "2")) trivial fun _ => .bind readOnly_getMsgStr fun m => ?_
        split
        · refine .bind (readOnly_orFault _) fun b => .bind (p := sendStr b) trivial fun _ => ?_
          exact .bind (readOnly_catFile _) fun _ => trivial
        · trivial
    · trivial

end

end MiniFs
