import MiniFs.Lib.Sends
import MiniFs.Theorems.CommandLoop

/-! # Records are strings

What the server writes as a record of a listing is one C string, whatever it reads from the disk. -/

namespace MiniFs
open Interact Memory

/-- A C string on the wire. -/
def IsStr (m : Msg) : Prop := ∃ text, NulFree text ∧ m = packet text

theorem nulFree_of_isStr {text : Str} (h : IsStr (packet text)) : NulFree text := by
  obtain ⟨text', hnul, heq⟩ := h
  rwa [List.append_cancel_right heq]

section
variable {α : Type} {b str : Str} {v : Int}

/-! ## The buffer -/

theorem catStr_nulFree (hb : NulFree b) (hs : NulFree str) : NulFree (catStr b str) := hb.append (hs.take _)

theorem itoa_nulFree {b' : Str} (hb : NulFree b) (h : itoa b v = some b') : NulFree b' := by
  unfold itoa at h
  split at h
  · cases h
    exact hb.append (by decide)
  split at h
  · cases h
  · cases h
    refine (hb.append ?_).append fun c hc => (digits_digs 20 _).nulFree c (List.mem_reverse.mp hc)
    split <;> decide

theorem catInt_nulFree {b' : Str} (hb : NulFree b) (h : catInt b v = some b') : NulFree b' := by
  unfold catInt at h
  split at h
  · rename_i b₁ hb₁
    split at h
    · cases h
      exact itoa_nulFree hb hb₁
    · cases h
  · cases h

theorem showMode_nulFree (d : Bool) (mode : Int) : NulFree (showMode initStr d mode) := by
  have hchar : ∀ idx, modeChar mode idx ≠ 0 := fun idx => by
    unfold modeChar
    split
    · decide
    · split <;> decide
  refine NulFree.nil.append fun c hc => ?_
  rcases List.mem_cons.mp hc with rfl | hc
  · split <;> decide
  · obtain ⟨idx, -, rfl⟩ := List.mem_map.mp hc
    exact hchar idx

theorem showOwner_nulFree {owner : Int} {b' : Str} (hb : NulFree b) (h : showOwner b owner = some b') : NulFree b' := by
  have hpart : ∀ (b b' pre : Str) (v : Int), NulFree b → NulFree pre →
      (if v = 0 then some (catStr b (lit "root")) else catInt (catStr b pre) v) = some b' → NulFree b' := by
    intro b b' pre v hb hpre h
    split at h
    · cases h
      exact catStr_nulFree hb (by decide)
    · exact catInt_nulFree (catStr_nulFree hb hpre) h
  have htab : NulFree (lit "\t") := by decide
  have hsplit : showOwner b owner = (if owner / 256 % 256 = 0 then some (catStr (catStr b (lit "\t")) (lit "root"))
      else catInt (catStr (catStr b (lit "\t")) (lit "user_")) (owner / 256 % 256)) >>= fun b =>
      if owner % 256 = 0 then some (catStr (catStr b (lit "\t")) (lit "root"))
      else catInt (catStr (catStr b (lit "\t")) (lit "group_")) (owner % 256) := by
    unfold showOwner
    dsimp only
    split <;> rfl
  rw [hsplit] at h
  obtain ⟨b₁, h₁, h⟩ := Option.bind_eq_some_iff.mp h
  have hb₁ := hpart _ _ (lit "user_") _ (catStr_nulFree hb htab) (by decide) h₁
  exact hpart _ _ (lit "group_") _ (catStr_nulFree hb₁ htab) (by decide) h

theorem showHead_nulFree {d : Bool} {zone : Zone} {size : Int} (h : showHead d zone size = some b) : NulFree b := by
  have htab : NulFree (lit "\t") := by decide
  unfold showHead at h
  obtain ⟨b₁, h₁, h⟩ := Option.bind_eq_some_iff.mp h
  obtain ⟨b₂, h₂, h⟩ := Option.bind_eq_some_iff.mp h
  have hb₁ := showOwner_nulFree (showMode_nulFree d _) h₁
  have hb₂ := catInt_nulFree (catStr_nulFree hb₁ htab) h₂
  exact catInt_nulFree (catStr_nulFree hb₂ htab) h

/-! ## What is sent -/

/-- The messages of the program are C strings, and what it returns is as `Q` says. -/
abbrev SendsStr {α : Type} (p : FsM α) (Q : α → Prop := fun _ => True) : Prop := p.Sends IsStr Q

theorem sends_orFault (o : Option α) : SendsStr (orFault o) fun a => o = some a := by
  cases o <;> trivial

theorem sends_getMsgStr : SendsStr getMsgStr := fun _ =>
  Prog.Sends.mono (sends_orFault _) fun _ _ => trivial

theorem sends_getState (id : Int) : SendsStr (Fs.getState id) := fun _ => trivial

theorem sends_sendStr (hb : NulFree b) : SendsStr (sendStr b) := ⟨⟨b, hb, rfl⟩, trivial⟩

theorem sends_sendMsg (hb : NulFree b) : SendsStr (sendMsg b) := ⟨⟨_, hb.take _, rfl⟩, trivial⟩

section
variable {β : Type} {Q : α → Prop}

theorem SendsStr.bind {p : FsM β} {f : β → FsM α} {R : β → Prop} (hp : SendsStr p R) (hf : ∀ b, R b → SendsStr (f b) Q) :
    SendsStr (p >>= f) Q := Prog.Sends.seq hp hf

theorem SendsStr.seq {p : FsM β} {f : β → FsM α} (hp : SendsStr p) (hf : ∀ b, SendsStr (f b) Q) : SendsStr (p >>= f) Q :=
  Prog.Sends.seq hp fun b _ => hf b

/-- A zone is read for what the program does with it. -/
theorem SendsStr.readZone {id : Int} {f : Option Zone → FsM α} (hf : ∀ z, SendsStr (f z) Q) :
    SendsStr (Fs.readZone id >>= f) Q := SendsStr.seq (p := Fs.readZone id) (fun _ => trivial) hf

end

theorem sends_showSubName (pId id : Int) (hb : NulFree b) : SendsStr (showSubName b pId id) NulFree := by
  have hat : ∀ (L : Layout) (cont : Int → FsM Str) (pId : Int), (∀ i, SendsStr (cont i) NulFree) →
      SendsStr (showSubNameAt L cont b pId id) NulFree := by
    intro L cont pId hcont
    refine .readZone fun zone => ?_
    cases zone with
    | none => exact hb
    | some zone =>
      dsimp only
      split
      · refine .bind (sends_orFault _) fun name hname => ?_
        refine catStr_nulFree (catStr_nulFree hb (by decide)) ?_
        unfold Zone.cstr? at hname
        split at hname
        · cases hname
          intro c hc
          simpa using List.mem_takeWhile_imp hc
        · cases hname
      · split
        · exact hcont _
        · exact hb
  have hcont : ∀ fuel i, SendsStr (showSubNameCont fuel b i id) NulFree := fun fuel => by
    induction fuel with
    | zero => exact fun _ => trivial
    | succ fuel ih => exact fun i => hat dirZone _ i ih
  exact hat dentry _ pId (hcont zoneFuel)

/-- `get_size` sends nothing. -/
theorem sends_getSize (zone : Zone) : SendsStr (getSize zone) := by
  have hsubs : ∀ (sizeOf : Zone → FsM Int) (L : Layout) (zone : Zone), (∀ z, SendsStr (sizeOf z)) →
      ∀ n i size, SendsStr (sizeSubs sizeOf L zone n i size) := by
    intro sizeOf L zone hsize n
    induction n with
    | zero => exact fun _ _ => trivial
    | succ n ih =>
      intro i size
      unfold sizeSubs
      split
      · trivial
      refine .seq (sends_getState _) fun st => ?_
      split
      · refine .readZone fun inode => ?_
        cases inode with
        | none => trivial
        | some inode => exact ih _ _
      refine .seq (sends_getState _) fun st' => ?_
      split
      · refine .readZone fun dir => ?_
        cases dir with
        | none => trivial
        | some dir => exact .seq (hsize dir) fun _ => ih _ _
      · trivial
  have hat : ∀ fuel L z, SendsStr (getSizeAt fuel L z) := fun fuel => by
    induction fuel with
    | zero => exact fun _ _ => trivial
    | succ fuel ih =>
      intro L z
      unfold getSizeAt
      refine .seq (hsubs _ L z (ih dentry) _ _ _) fun r => ?_
      cases r with
      | error v => trivial
      | ok size =>
        dsimp only
        split
        · refine .readZone fun next => ?_
          cases next with
          | none => trivial
          | some next => exact .seq (ih dirZone next) fun _ => trivial
        · trivial
  exact hat _ _ _

/-- The end of `show_file` and `show_dir`. -/
theorem sends_record {d : Bool} {zone : Zone} {size : Int} (pId id : Int) : SendsStr (do
    let b ← orFault (showHead d zone size)
    let b ← showSubName b pId id
    sendStr (catStr b (lit "\n"))) := by
  refine .bind (sends_orFault _) fun b hb => ?_
  refine .bind (sends_showSubName pId id (showHead_nulFree hb)) fun b' hb' => ?_
  exact sends_sendStr (catStr_nulFree hb' (by decide))

theorem sends_showFile (id : Int) : SendsStr (showFile id) := by
  refine .seq sends_getMsgStr fun msg => ?_
  split
  · refine .readZone fun inode => ?_
    cases inode with
    | none => exact sends_sendMsg (by decide)
    | some inode => exact sends_record _ _
  · trivial

theorem sends_showDir (id : Int) : SendsStr (showDir id) := by
  refine .seq sends_getMsgStr fun msg => ?_
  split
  · refine .readZone fun dir => ?_
    cases dir with
    | none => exact sends_sendMsg (by decide)
    | some dir => exact .seq (sends_getSize dir) fun size => sends_record _ _
  · trivial

theorem sends_catEntry (id : Int) : SendsStr (catEntry id) := by
  refine .seq (sends_getState _) fun st => ?_
  split
  · exact sends_showDir id
  refine .seq (sends_getState _) fun st' => ?_
  split
  · exact sends_showFile id
  refine .seq sends_getMsgStr fun msg => ?_
  split
  · exact .seq (sends_sendMsg (by decide)) fun _ => .seq (sends_getState _) fun _ => trivial
  · exact .seq (sends_getState _) fun _ => trivial

theorem sends_catDir (id : Int) : SendsStr (catDir id) := by
  have hwhile : ∀ (get : Nat → Int) n i, SendsStr (whileUsed get catEntry n i) := fun get n => by
    induction n with
    | zero => exact fun _ => trivial
    | succ n ih =>
      intro i
      unfold whileUsed
      split
      · trivial
      · exact .seq (sends_catEntry _) fun _ => ih _
  refine .readZone fun zone => ?_
  cases zone with
  | none => trivial
  | some zone =>
    refine .seq (hwhile _ _ _) fun all => ?_
    split
    · split
      · refine .readZone fun z => ?_
        cases z <;> trivial
      · trivial
    · trivial

end

/-! ## Listings of strings -/

/-- The record of an entry, which is a C string. -/
def IsRow (s : Store) (e : Entry) (m : Msg) : Prop := IsRecord s e m ∧ IsStr m

theorem exchanges_also {answers : List (Msg → Prop)} :
    (exchanges answers .done).also IsStr = exchanges (answers.map fun answer m => answer m ∧ IsStr m) .done := by
  induction answers with
  | nil => rfl
  | cons answer answers ih =>
    show Session.hear _ (.send _ fun _ => (exchanges answers .done).also IsStr) = _
    rw [ih]
    rfl

/-- A program whose messages are strings answers with strings. -/
theorem SendsStr.exchanges {α σ : Type} {p : FsM α} {X : Sem fsSig σ} {s : σ} {answers : List (Msg → Prop)}
    (hp : SendsStr p) (h : wp X.talk p (fun _ u => u = (s, .done)) (s, MiniFs.exchanges answers .done)) :
    wp X.talk p (fun _ u => u = (s, .done)) (s, MiniFs.exchanges (answers.map fun answer m => answer m ∧ IsStr m) .done) := by
  rw [← exchanges_also]
  refine wp_mono (Prog.Sends.talk hp h) ?_
  rintro a ⟨t, A⟩ ⟨-, B, rfl, heq⟩
  cases heq
  rfl

end MiniFs
