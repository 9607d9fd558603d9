import MiniFs.Lib.Refine
import MiniFs.Theorems.Append
import MiniFs.Theorems.Lookup

/-! # The ids that the server uses

An id is a `signed short`. Whatever the zones hold, the commands read and write zones only by ids that are the value of a
field of a zone, an answer of `get_free_id` or an id of the working directory, so that no id is past the last zone of the
disk. -/

namespace MiniFs
open Interact Memory

/-- The zones that are read and written have an id of 16 bits. -/
def ShortOp : FsOp → Prop
  | .readZone id => id < 32768
  | .writeZone id _ => id < 32768
  | _ => True

/-- An id that `get_free_id` answers has 16 bits. -/
def ShortAns : (e : FsOp) → e.Ans → Prop
  | .getFreeId _, id => (show Int from id) < 32768
  | _, _ => True

/-- The program uses such ids only, and what it returns is as `Q` says. -/
abbrev ShortIds {α : Type} (p : FsM α) (Q : α → Prop := fun _ => True) : Prop := p.Within ShortOp ShortAns Q

def PathT.Short (p : PathT) : Prop := ∀ id ∈ p.ids, id < 32768

section
variable {α β : Type} {id pId : Int} {str name : Str} {Q : α → Prop}

theorem PathT.root_short : PathT.root.Short := by simp [PathT.Short, PathT.ids]

theorem PathT.Short.id_lt {p : PathT} (h : p.Short) : p.id < 32768 := by
  cases p with
  | root => exact h 4 List.mem_cons_self
  | node id prev => exact h id List.mem_cons_self

theorem PathT.Short.prev {p q : PathT} (h : p.Short) (hq : p.prev = some q) : q.Short := by
  cases p with
  | root => cases hq
  | node id prev =>
    cases hq
    exact fun i hi => h i (List.mem_cons_of_mem _ hi)

theorem PathT.Short.node {p : PathT} (h : p.Short) (hid : id < 32768) : (PathT.node id p).Short := by
  intro i hi
  rcases List.mem_cons.mp hi with rfl | hi
  · exact hid
  · exact h i hi

/-! ## Operations -/

theorem Layout.subId_short (L : Layout) (z : Zone) (i : Nat) : L.subId z i < 32768 := (z.int16_range _).2

theorem Layout.next_short (L : Layout) (z : Zone) : L.next z < 32768 := (z.int16_range _).2

theorem Zone.idx_short (z : Zone) (i : Nat) : z.idx i < 32768 := (z.int16_range _).2

theorem Zone.ptr_short (z : Zone) (i : Nat) : z.ptr i < 32768 := (z.int16_range _).2

theorem Zone.parent_short (z : Zone) : z.parent < 32768 := (z.int16_range _).2

theorem getFreeIdFrom_lt {n : Nat} {map : Bitmap n} {b : Byte} {fuel k : Nat} {p : Int × Bitmap n}
    (h : getFreeIdFrom map b fuel k = some p) : p.1 < k + fuel := by
  induction fuel generalizing k with
  | zero =>
    cases h
    show (-1 : Int) < _
    omega
  | succ fuel ih =>
    unfold getFreeIdFrom at h
    obtain ⟨st, -, h⟩ := Option.bind_eq_some_iff.mp h
    split at h
    · obtain ⟨m, -, h⟩ := Option.bind_eq_some_iff.mp h
      cases h
      show (k : Int) < _
      omega
    · have := ih h
      push_cast at this ⊢
      omega

/-- `get_free_id` looks at the ids of 16 bits. -/
theorem getFreeId_lt {n : Nat} {map : Bitmap n} {b : Byte} {p : Int × Bitmap n} (h : getFreeId map b = some p) :
    p.1 < 32768 := getFreeIdFrom_lt h

theorem short_getState (id : Int) : ShortIds (Fs.getState id) := ⟨trivial, fun _ _ => trivial⟩

theorem short_getFreeId (b : Byte) : ShortIds (Fs.getFreeId b) fun id => id < 32768 := ⟨trivial, fun _ h => h⟩

theorem short_setFreeId (id : Int) : ShortIds (Fs.setFreeId id) := ⟨trivial, fun _ _ => trivial⟩

theorem short_readZone (h : id < 32768) : ShortIds (Fs.readZone id) := ⟨h, fun _ _ => trivial⟩

theorem short_writeZone (h : id < 32768) (z : Zone) : ShortIds (Fs.writeZone id z) := ⟨h, fun _ _ => trivial⟩

theorem short_time : ShortIds Fs.time := ⟨trivial, fun _ _ => trivial⟩

theorem short_unset : ShortIds Fs.unset := ⟨trivial, fun _ _ => trivial⟩

theorem short_orFault (o : Option α) : ShortIds (orFault o) := by
  cases o <;> trivial

theorem short_getMsgStr : ShortIds getMsgStr :=
  Prog.Within.seq (p := getMsg) (R := fun _ => True) (fun _ => trivial) fun o _ => short_orFault o

/-- A zone is read for what the program does with it. -/
theorem ShortIds.readZone (h : id < 32768) {f : Option Zone → FsM α} (hf : ∀ z, ShortIds (f z) Q) :
    ShortIds (Fs.readZone id >>= f) Q := (short_readZone h).seq fun z _ => hf z

theorem ShortIds.writeZone (h : id < 32768) {z : Zone} {f : Unit → FsM α} (hf : ShortIds (f ()) Q) :
    ShortIds (Fs.writeZone id z >>= f) Q := (short_writeZone h z).seq fun _ _ => hf

theorem ShortIds.bind {p : FsM β} {f : β → FsM α} {R : β → Prop} (hp : ShortIds p R) (hf : ∀ b, R b → ShortIds (f b) Q) :
    ShortIds (p >>= f) Q := Prog.Within.seq hp hf

theorem ShortIds.seq {p : FsM β} {f : β → FsM α} (hp : ShortIds p) (hf : ∀ b, ShortIds (f b) Q) : ShortIds (p >>= f) Q :=
  Prog.Within.seq hp fun b _ => hf b

theorem short_whileUsed {get : Nat → Int} {f : Int → FsM Unit} (hget : ∀ i, get i < 32768)
    (hf : ∀ id, id < 32768 → ShortIds (f id)) (n i : Nat) : ShortIds (whileUsed get f n i) := by
  induction n generalizing i with
  | zero => trivial
  | succ n ih =>
    unfold whileUsed
    split
    · trivial
    · exact .seq (hf _ (hget i)) fun _ => ih _

/-! ## Entries -/

theorem short_addSubAt {L : Layout} {cont : Int → FsM Unit} (hc : ∀ id, id < 32768 → ShortIds (cont id)) (hp : pId < 32768)
    (zone : Zone) : ShortIds (addSubAt L cont pId id name zone) := by
  unfold addSubAt
  split
  · exact .writeZone hp (hc _ (L.next_short _))
  split
  · refine .bind (short_getFreeId _) fun next _ => .writeZone hp ?_
    exact .seq (short_orFault _) fun fresh => short_writeZone (L.next_short _) _
  · exact .seq (short_orFault _) fun zone => short_writeZone hp _

theorem short_addSubCont (fuel : Nat) (hp : pId < 32768) : ShortIds (addSubCont fuel pId id name) := by
  induction fuel generalizing pId with
  | zero => trivial
  | succ fuel ih =>
    refine .readZone hp fun z => ?_
    cases z with
    | none => trivial
    | some z => exact short_addSubAt (fun _ h => ih h) hp z

theorem short_addSub (hp : pId < 32768) : ShortIds (addSub pId id name) := by
  refine .readZone hp fun z => ?_
  cases z with
  | none => trivial
  | some z => exact .seq short_time fun _ => short_addSubAt (fun _ h => short_addSubCont _ h) hp _

theorem short_rmTailSub (fuel : Nat) (hp : pId < 32768) : ShortIds (rmTailSub fuel pId) := by
  induction fuel generalizing pId with
  | zero => trivial
  | succ fuel ih =>
    refine .readZone hp fun z => ?_
    cases z with
    | none => exact .seq short_unset fun _ => trivial
    | some z =>
      dsimp only
      split
      · split
        · exact .seq (short_orFault _) fun name => .writeZone hp (.seq short_unset fun _ => trivial)
        · trivial
      · exact ih (Layout.next_short _ _)

theorem short_rmSubAt {L : Layout} {cont : Int → FsM Unit} (hc : ∀ id, id < 32768 → ShortIds (cont id)) (hp : pId < 32768)
    (zone : Zone) : ShortIds (rmSubAt L cont pId id zone) := by
  unfold rmSubAt
  split
  · split
    · exact .seq (short_orFault _) fun zone => short_writeZone hp _
    · exact .seq (short_rmTailSub _ (L.next_short _)) fun r => .seq (short_orFault _) fun zone => short_writeZone hp _
  · split
    · exact hc _ (L.next_short _)
    · trivial

theorem short_rmSubCont (fuel : Nat) (hp : pId < 32768) : ShortIds (rmSubCont fuel pId id) := by
  induction fuel generalizing pId with
  | zero => trivial
  | succ fuel ih =>
    refine .readZone hp fun z => ?_
    cases z with
    | none => trivial
    | some z => exact short_rmSubAt (fun _ h => ih h) hp z

theorem short_rmSub (hp : pId < 32768) : ShortIds (rmSub pId id) := by
  refine .readZone hp fun z => ?_
  cases z with
  | none => trivial
  | some z => exact short_rmSubAt (fun _ h => short_rmSubCont _ h) hp z

/-! ## Freeing -/

theorem short_rmIdxZoneAt {f : Int → FsM Unit} (hf : ∀ id, id < 32768 → ShortIds (f id)) (h : id < 32768) :
    ShortIds (rmIdxZoneAt f id) := by
  refine .readZone h fun z => ?_
  cases z with
  | none => trivial
  | some z =>
    exact .seq (short_setFreeId _) fun _ => .seq (short_whileUsed (fun i => z.idx_short i) hf _ _) fun _ => trivial

theorem short_rmIdxZone (flag : Bool) (h : id < 32768) : ShortIds (rmIdxZone id flag) := by
  cases flag with
  | false => exact short_rmIdxZoneAt (fun i _ => short_setFreeId i) h
  | true => exact short_rmIdxZoneAt (fun i hi => short_rmIdxZoneAt (fun j _ => short_setFreeId j) hi) h

theorem short_rmInode (h : id < 32768) : ShortIds (rmInode id) := by
  refine .readZone h fun z => ?_
  cases z with
  | none => trivial
  | some z =>
    have hptr : ∀ i, z.ptr i < 32768 := fun i => z.ptr_short i
    refine .seq (short_setFreeId _) fun _ => .seq (short_whileUsed hptr (fun i _ => short_setFreeId i) _ _) fun b => ?_
    split
    · refine .seq (short_whileUsed hptr (fun i hi => short_rmIdxZone false hi) _ _) fun b => ?_
      split
      · exact .seq (short_whileUsed hptr (fun i hi => short_rmIdxZone true hi) _ _) fun _ => trivial
      · trivial
    · trivial

theorem short_rmDirAt {L : Layout} {cont : Int → FsM Unit} (hc : ∀ id, id < 32768 → ShortIds (cont id)) (h : id < 32768) :
    ShortIds (rmDirAt L cont id) := by
  refine .readZone h fun z => ?_
  cases z with
  | none => trivial
  | some z =>
    refine .seq (short_setFreeId _) fun _ =>
      .seq (short_whileUsed (fun i => L.subId_short z i) (fun i _ => short_setFreeId i) _ _) fun b => ?_
    split
    · split
      · exact hc _ (L.next_short _)
      · trivial
    · trivial

theorem short_rmDirZone (fuel : Nat) (h : id < 32768) : ShortIds (rmDirZone fuel id) := by
  induction fuel generalizing id with
  | zero => trivial
  | succ fuel ih => exact short_rmDirAt (fun _ hi => ih hi) h

theorem short_rmDentry (h : id < 32768) : ShortIds (rmDentry id) := short_rmDirAt (fun _ hi => short_rmDirZone _ hi) h

/-! ## Listing -/

theorem short_getLsLenCont (fuel : Nat) (h : id < 32768) : ShortIds (getLsLenCont fuel id) := by
  induction fuel generalizing id with
  | zero => trivial
  | succ fuel ih =>
    refine .readZone h fun z => ?_
    cases z with
    | none => exact short_unset
    | some z =>
      dsimp only
      split
      · exact .seq (ih (Layout.next_short _ _)) fun _ => trivial
      · trivial

theorem short_getLsLen (h : id < 32768) : ShortIds (getLsLen id) := by
  refine .seq (short_getState _) fun b => ?_
  split
  · trivial
  split
  · refine .readZone h fun z => ?_
    cases z with
    | none => exact short_unset
    | some z =>
      dsimp only
      split
      · exact .seq (short_getLsLenCont _ (Layout.next_short _ _)) fun _ => trivial
      · trivial
  · trivial

theorem short_sizeSubs {sizeOf : Zone → FsM Int} (h : ∀ z, ShortIds (sizeOf z)) (L : Layout) (zone : Zone) (n i : Nat)
    (size : Int) : ShortIds (sizeSubs sizeOf L zone n i size) := by
  induction n generalizing i size with
  | zero => trivial
  | succ n ih =>
    unfold sizeSubs
    split
    · trivial
    refine .seq (short_getState _) fun b => ?_
    split
    · refine .readZone (L.subId_short _ _) fun z => ?_
      cases z with
      | none => trivial
      | some z => exact ih _ _
    refine .seq (short_getState _) fun b' => ?_
    split
    · refine .readZone (L.subId_short _ _) fun z => ?_
      cases z with
      | none => trivial
      | some z => exact .seq (h z) fun _ => ih _ _
    · trivial

theorem short_getSizeAt (fuel : Nat) (L : Layout) (zone : Zone) : ShortIds (getSizeAt fuel L zone) := by
  induction fuel generalizing L zone with
  | zero => trivial
  | succ fuel ih =>
    refine .seq (short_sizeSubs (fun z => ih dentry z) L zone _ _ _) fun r => ?_
    cases r with
    | error v => trivial
    | ok size =>
      dsimp only
      split
      · refine .readZone (L.next_short _) fun z => ?_
        cases z with
        | none => trivial
        | some z => exact .seq (ih _ _) fun _ => trivial
      · trivial

theorem short_showSubNameAt {cont : Int → FsM Str} (hc : ∀ id, id < 32768 → ShortIds (cont id)) (L : Layout) (buffer : Str)
    (hp : pId < 32768) : ShortIds (showSubNameAt L cont buffer pId id) := by
  refine .readZone hp fun z => ?_
  cases z with
  | none => trivial
  | some z =>
    dsimp only
    split
    · exact .seq (short_orFault _) fun _ => trivial
    · split
      · exact hc _ (L.next_short _)
      · trivial

theorem short_showSubNameCont (fuel : Nat) (buffer : Str) (hp : pId < 32768) :
    ShortIds (showSubNameCont fuel buffer pId id) := by
  induction fuel generalizing pId with
  | zero => trivial
  | succ fuel ih => exact short_showSubNameAt (fun _ h => ih h) _ _ hp

theorem short_showSubName (buffer : Str) (hp : pId < 32768) : ShortIds (showSubName buffer pId id) :=
  short_showSubNameAt (fun _ h => short_showSubNameCont _ _ h) _ _ hp

theorem short_showFile (h : id < 32768) : ShortIds (showFile id) := by
  refine .seq short_getMsgStr fun m => ?_
  split
  · refine .readZone h fun z => ?_
    cases z with
    | none => trivial
    | some z => exact .seq (short_orFault _) fun b => .seq (short_showSubName _ z.parent_short) fun _ => trivial
  · trivial

theorem short_showDir (h : id < 32768) : ShortIds (showDir id) := by
  refine .seq short_getMsgStr fun m => ?_
  split
  · refine .readZone h fun z => ?_
    cases z with
    | none => trivial
    | some z =>
      refine .seq (short_getSizeAt _ _ _) fun size => .seq (short_orFault _) fun b => ?_
      exact .seq (short_showSubName _ z.parent_short) fun _ => trivial
  · trivial

theorem short_catEntry (h : id < 32768) : ShortIds (catEntry id) := by
  refine .seq (short_getState _) fun b => ?_
  split
  · exact short_showDir h
  refine .seq (short_getState _) fun b' => ?_
  split
  · exact short_showFile h
  · refine .seq short_getMsgStr fun m => ?_
    split
    · exact .seq (p := sendMsg (lit "\n")) trivial fun _ => .seq (short_getState _) fun _ => trivial
    · exact .seq (short_getState _) fun _ => trivial

theorem short_catDir (h : id < 32768) : ShortIds (catDir id) := by
  refine .readZone h fun z => ?_
  cases z with
  | none => trivial
  | some z =>
    refine .seq (short_whileUsed (fun i => Layout.subId_short _ z i) (fun _ hi => short_catEntry hi) _ _) fun all => ?_
    split
    · split
      · refine .readZone (Layout.next_short _ _) fun z => ?_
        cases z <;> trivial
      · trivial
    · trivial

theorem short_catData (h : id < 32768) : ShortIds (catData id) := by
  refine .seq short_getMsgStr fun m => ?_
  split
  · refine .readZone h fun z => ?_
    cases z <;> trivial
  · trivial

theorem short_catIdxAt {f : Int → FsM Unit} (hf : ∀ id, id < 32768 → ShortIds (f id)) (h : id < 32768) :
    ShortIds (catIdxAt f id) := by
  refine .readZone h fun z => ?_
  cases z with
  | none => trivial
  | some z => exact .seq (short_whileUsed (fun i => z.idx_short i) hf _ _) fun _ => trivial

theorem short_catIdx (flag : Bool) (h : id < 32768) : ShortIds (catIdx id flag) := by
  cases flag with
  | false => exact short_catIdxAt (fun _ hi => short_catData hi) h
  | true => exact short_catIdxAt (fun _ hi => short_catIdxAt (fun _ hj => short_catData hj) hi) h

theorem short_catFile (h : id < 32768) : ShortIds (catFile id) := by
  refine .readZone h fun z => ?_
  cases z with
  | none => trivial
  | some z =>
    have hptr : ∀ i, z.ptr i < 32768 := fun i => z.ptr_short i
    refine .seq (short_whileUsed hptr (fun _ hi => short_catData hi) _ _) fun b => ?_
    split
    · refine .seq (short_whileUsed hptr (fun _ hi => short_catIdx false hi) _ _) fun b => ?_
      split
      · exact .seq (short_whileUsed hptr (fun _ hi => short_catIdx true hi) _ _) fun _ => trivial
      · trivial
    · trivial

/-! ## Appending -/

theorem short_wrtData (h : id < 32768) (str : Str) : ShortIds (wrtData id str) := by
  refine .readZone h fun z => ?_
  cases z with
  | none => trivial
  | some z =>
    refine .seq (short_orFault _) fun data => ?_
    split
    · exact .writeZone h trivial
    · exact .writeZone h trivial

theorem short_firstZone (empty : Bool) (str : Str) : ShortIds (firstZone empty str) := by
  unfold firstZone
  split
  · refine .bind (short_getFreeId _) fun nId hn => ?_
    split
    · exact .writeZone hn trivial
    · trivial
  · trivial

theorem short_wrtIdxLoop {w : Int → Str → FsM Int} (hw : ∀ id str, id < 32768 → ShortIds (w id str)) (h : id < 32768)
    (n idx : Nat) (len : Int) (zone : Zone) : ShortIds (wrtIdxLoop w id str n idx len zone) := by
  induction n generalizing idx len zone with
  | zero =>
    rw [wrtIdxLoop_eq]
    refine .seq (short_orFault _) fun s => .seq (hw _ _ (zone.idx_short _)) fun l => .seq (short_orFault _) fun rest => ?_
    rw [wrtIdxNext_end (Or.inl rfl)]
    exact .writeZone h trivial
  | succ n ih =>
    rw [wrtIdxLoop_eq]
    refine .seq (short_orFault _) fun s => .seq (hw _ _ (zone.idx_short _)) fun l => .seq (short_orFault _) fun rest => ?_
    by_cases hrest : rest = []
    · rw [wrtIdxNext_end (Or.inr hrest)]
      exact .writeZone h trivial
    · rw [wrtIdxNext_succ hrest]
      refine .bind (short_getFreeId _) fun nId hn => ?_
      split
      · exact .writeZone hn (ih _ _ _)
      · trivial

theorem short_wrtIdxAt {w : Int → Str → FsM Int} (hw : ∀ id str, id < 32768 → ShortIds (w id str)) (h : id < 32768)
    (str : Str) : ShortIds (wrtIdxAt w id str) := by
  refine .readZone h fun z => ?_
  cases z with
  | none => exact short_unset
  | some z => exact .seq (short_firstZone _ _) fun o => short_wrtIdxLoop hw h _ _ _ _

theorem short_wrtIdx (h : id < 32768) (str : Str) (flag : Bool) : ShortIds (wrtIdx id str flag) := by
  have hdata : ∀ id str, id < 32768 → ShortIds (wrtData id str) := fun _ str h => short_wrtData h str
  cases flag with
  | false => exact short_wrtIdxAt hdata h str
  | true => exact short_wrtIdxAt (fun _ str hi => short_wrtIdxAt hdata hi str) h str

theorem short_updateSizeIdxAt {f : Int → FsM Int} (hf : ∀ id, id < 32768 → ShortIds (f id)) (h : id < 32768) :
    ShortIds (updateSizeIdxAt f id) := by
  refine .readZone h fun z => ?_
  cases z with
  | none => exact short_unset
  | some z =>
    have hgo : ∀ n idx size, ShortIds (updateSizeIdxAt.go f z n idx size) := by
      intro n
      induction n with
      | zero => exact fun _ _ => trivial
      | succ n ih =>
        intro idx size
        unfold updateSizeIdxAt.go
        split
        · trivial
        · exact .seq (hf _ (z.idx_short _)) fun _ => ih _ _
    exact hgo _ _ _

theorem short_updateSizeIdx (flag : Bool) (h : id < 32768) : ShortIds (updateSizeIdx id flag) := by
  cases flag with
  | false => exact short_updateSizeIdxAt (fun _ _ => trivial) h
  | true => exact short_updateSizeIdxAt (fun _ hi => short_updateSizeIdxAt (fun _ _ => trivial) hi) h

theorem short_updateSize (inode : Zone) : ShortIds (updateSize inode) := by
  unfold updateSize
  split
  · exact .seq (short_updateSizeIdx _ (inode.ptr_short _)) fun _ => trivial
  split
  · exact .seq (short_updateSizeIdx _ (inode.ptr_short _)) fun _ => trivial
  split
  · exact .seq (short_updateSizeIdx _ (inode.ptr_short _)) fun _ => trivial
  split
  · exact .seq (short_updateSizeIdx _ (inode.ptr_short _)) fun _ => trivial
  · trivial

theorem short_addDataLast (inode : Zone) (str : Str) : ShortIds (addDataLast inode str) := by
  unfold addDataLast
  split
  · exact .seq (short_wrtIdx (inode.ptr_short _) _ _) fun _ => trivial
  split
  · exact .seq (short_wrtIdx (inode.ptr_short _) _ _) fun _ => trivial
  split
  · exact .seq (short_wrtIdx (inode.ptr_short _) _ _) fun _ => trivial
  split
  · exact .seq (short_wrtIdx (inode.ptr_short _) _ _) fun _ => trivial
  · exact .seq (short_firstZone _ _) fun o => .seq (short_wrtData (Zone.ptr_short _ _) _) fun _ => trivial

theorem short_addData (fuel : Nat) (inode : Zone) (str : Str) : ShortIds (addData fuel inode str) := by
  induction fuel generalizing inode str with
  | zero => trivial
  | succ fuel ih =>
    refine .seq (short_addDataLast _ _) fun r => .seq (short_orFault _) fun rest => ?_
    split
    · refine .bind (short_getFreeId _) fun id hid => ?_
      split
      · exact .writeZone hid (ih _ _)
      · trivial
    · exact .seq (short_updateSize _) fun size => .seq short_time fun now => trivial

/-! ## Paths -/

/-- The ids of a path that is found have 16 bits. -/
abbrev FoundShort (r : Option PathT × Str) : Prop := ∀ p, r.1 = some p → p.Short

theorem short_getSubPath {parent : PathT} (h : parent.Short) (name : Str) :
    ShortIds (getSubPath parent name) fun r => ∀ p, r = some p → p.Short := by
  refine .readZone h.id_lt fun z => ?_
  cases z with
  | none => exact nofun
  | some z =>
    refine ⟨trivial, fun above _ => ?_⟩
    dsimp only [Prog.bind]
    split
    · exact nofun
    · split
      · intro p hp
        cases hp
        exact h.node (int16Of_range _ _).2
      · trivial

theorem short_getPathFromRoot (fuel : Nat) {curr : PathT} (h : curr.Short) (path : Str) :
    ShortIds (getPathFromRoot fuel curr path) FoundShort := by
  induction fuel generalizing curr path with
  | zero => trivial
  | succ fuel ih =>
    unfold getPathFromRoot
    split
    · intro p hp
      cases hp
      exact h
    split
    · exact fun p hp => h.prev hp
    split
    · exact .bind (ih h _) fun _ hr => hr
    split
    · split
      · exact nofun
      · rename_i q hq
        exact .bind (ih (h.prev hq) _) fun _ hr => hr
    refine .seq (short_getState _) fun b => ?_
    split
    · exact nofun
    refine .bind (short_getSubPath h _) fun sub hsub => ?_
    cases sub with
    | none => exact nofun
    | some sub =>
      dsimp only
      split
      · exact .bind (ih (hsub _ rfl) _) fun _ hr => hr
      · intro p hp
        cases hp
        exact hsub _ rfl

theorem short_getPathFromPwd (fuel : Nat) {curr : PathT} (h : curr.Short) (path : Str) :
    ShortIds (getPathFromPwd fuel curr path) FoundShort := by
  induction fuel generalizing path with
  | zero => trivial
  | succ fuel ih =>
    unfold getPathFromPwd
    simp only [pathClone_eq]
    split
    · intro p hp
      cases hp
      exact h
    split
    · intro p hp
      obtain ⟨q, hq, rfl⟩ := Option.map_eq_some_iff.mp hp
      rw [pathClone_eq]
      exact h.prev hq
    split
    · exact .bind (ih _) fun _ hr => hr
    split
    · split
      · exact nofun
      · rename_i q hq
        exact .bind (short_getPathFromRoot _ (h.prev hq) _) fun _ hr => hr
    refine .seq (short_getState _) fun b => ?_
    split
    · exact nofun
    · exact short_getPathFromRoot _ h _

theorem short_getPath {pwd : PathT} (h : pwd.Short) (path : Str) : ShortIds (getPath pwd path) FoundShort := by
  unfold getPath
  split
  · exact short_getPathFromPwd _ h _
  · split
    · exact .bind (short_getPathFromRoot _ PathT.root_short _) fun _ hr => hr
    · exact short_getPathFromPwd _ h _

/-! ## Commands -/

section
variable {pwd : PathT} (h : pwd.Short) (path : Str)
include h

/-- A command looks a path up and goes on with what it finds. -/
theorem ShortIds.lookup {f : Option PathT × Str → FsM α} (hnone : ∀ cut, ShortIds (f (none, cut)) Q)
    (hsome : ∀ p cut, p.Short → ShortIds (f (some p, cut)) Q) : ShortIds (getPath pwd path >>= f) Q := by
  refine .bind (short_getPath h path) fun r hr => ?_
  obtain ⟨o, cut⟩ := r
  cases o with
  | none => exact hnone cut
  | some p => exact hsome p cut (hr p rfl)

theorem short_mkNode (state : Byte) (make : Int → UInt64 → Zone) : ShortIds (mkNode state make pwd path) := by
  refine .lookup h _ (fun cut => ?_) fun _ _ _ => trivial
  refine .seq (short_orFault _) fun r => .lookup h _ (fun _ => trivial) fun p cut hp => ?_
  refine .seq (short_getState _) fun b => ?_
  split
  · trivial
  refine .bind (short_getFreeId _) fun id hid => ?_
  split
  · trivial
  · exact .seq short_time fun now => .writeZone hid (.seq (short_addSub hp.id_lt) fun _ => trivial)

theorem short_rmNode {rm : Int → FsM Unit} (hrm : ∀ id, id < 32768 → ShortIds (rm id)) :
    ShortIds (rmNode rm pwd path) := by
  refine .lookup h _ (fun _ => trivial) fun p cut hp => .readZone hp.id_lt fun z => ?_
  cases z with
  | none => trivial
  | some z => exact .seq (hrm _ hp.id_lt) fun _ => .seq (short_rmSub z.parent_short) fun _ => trivial

theorem short_list : ShortIds (list pwd path) := by
  refine .lookup h _ (fun _ => trivial) fun p cut hp => ?_
  refine .seq (p := sendMsg (lit "2")) trivial fun _ => .seq short_getMsgStr fun m => ?_
  split
  · refine .seq (short_getLsLen hp.id_lt) fun len => .seq (short_orFault _) fun b => ?_
    refine .seq (p := sendStr b) trivial fun _ => .seq (short_getState _) fun state => ?_
    split
    · exact .seq (short_showFile hp.id_lt) fun _ => trivial
    split
    · exact .seq (short_catDir hp.id_lt) fun _ => trivial
    · exact .seq (short_getState _) fun _ => trivial
  · trivial

theorem short_cat : ShortIds (cat pwd path) := by
  refine .lookup h _ (fun _ => trivial) fun p cut hp => .seq (short_getState _) fun state => ?_
  split
  · refine .readZone hp.id_lt fun z => ?_
    cases z with
    | none => trivial
    | some z =>
      refine .seq (p := sendMsg (lit "2")) trivial fun _ => .seq short_getMsgStr fun m => ?_
      split
      · refine .seq (short_orFault _) fun b => .seq (p := sendStr b) trivial fun _ => ?_
        exact .seq (short_catFile hp.id_lt) fun _ => trivial
      · trivial
  · trivial

theorem short_append (str : Str) : ShortIds (append pwd path str) := by
  refine .lookup h _ (fun _ => trivial) fun p cut hp => .seq (short_getState _) fun state => ?_
  split
  · trivial
  refine .readZone hp.id_lt fun z => ?_
  cases z with
  | none => trivial
  | some z =>
    dsimp only
    split
    · exact .seq (short_addData _ _ _) fun inode => .writeZone hp.id_lt trivial
    · trivial

theorem short_wrt (str : Str) : ShortIds (wrt pwd path str) := by
  have hnew : ∀ copy path, ShortIds (wrtNew pwd copy path str) := fun copy path => by
    refine .seq (short_mkNode h _ _ _) fun r => ?_
    split
    · exact short_append h _ _
    · trivial
  refine .seq (short_orFault _) fun copy => .lookup h _ (fun cut => hnew _ _) fun p cut hp => ?_
  refine .seq (short_getState _) fun state => ?_
  split
  · exact .seq (short_rmNode h _ fun _ hi => short_rmInode hi) fun r => hnew _ _
  · trivial

theorem short_change : ShortIds (change pwd path) fun r => r.2.Short := by
  refine .lookup h _ (fun _ => h) fun p cut hp => .seq (short_getState _) fun state => ?_
  split
  · exact h
  · exact hp

/-- The answer to a request uses ids of 16 bits only, and so does the next working directory. -/
theorem short_interpret (tokens : List Str) :
    ShortIds (interpret pwd tokens) fun o => ∀ p, o = some p → p.Short := by
  have hsend : ∀ (m : Str) (o : Option PathT), (∀ p, o = some p → p.Short) →
      ShortIds (sendMsg m >>= fun _ => .ret o) fun o => ∀ p, o = some p → p.Short := fun _ _ ho => ho
  have hpwd : ∀ p, some pwd = some p → p.Short := fun p hp => by
    cases hp
    exact h
  have hstatus : ∀ command : FsM Nat, ShortIds command → ShortIds (status pwd command) fun o => ∀ p, o = some p → p.Short :=
    fun command hc => .seq hc fun _ => hsend _ _ hpwd
  have hfailure : ∀ command : FsM Nat, ShortIds command → ShortIds (failure pwd command) fun o => ∀ p, o = some p → p.Short :=
    fun command hc => .seq hc fun r => by
      split
      · exact hsend _ _ hpwd
      · exact hpwd
  have hcreate : ∀ (make : PathT → Str → FsM Nat) (path : Str), ShortIds (make pwd path) →
      ShortIds (create make pwd path) fun o => ∀ p, o = some p → p.Short := fun make path hm => hstatus _ <| by
    split
    · trivial
    · exact hm
  unfold interpret
  split
  · split
    · exact hsend _ _ nofun
    split
    · exact .seq (short_list h _) fun _ => hpwd
    · exact hsend _ _ hpwd
  · split
    · exact hcreate _ _ (short_mkNode h _ _ _)
    split
    · exact hcreate _ _ (short_mkNode h _ _ _)
    split
    · exact hstatus _ (.seq (short_rmNode h _ fun _ hi => short_rmInode hi) fun _ => trivial)
    split
    · exact hstatus _ (.seq (short_rmNode h _ fun _ hi => short_rmDentry hi) fun _ => trivial)
    split
    · exact hfailure _ (short_list h _)
    split
    · exact hfailure _ (short_cat h _)
    split
    · refine .bind (short_change h _) fun r hr => hsend _ _ fun p hp => ?_
      cases hp
      exact hr
    · exact hsend _ _ hpwd
  · split
    · exact hstatus _ (short_wrt h _ _)
    split
    · exact hstatus _ (short_append h _ _)
    · exact hsend _ _ hpwd
  · exact hsend _ _ hpwd

end

end

end MiniFs
