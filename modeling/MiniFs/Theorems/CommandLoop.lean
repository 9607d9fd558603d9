import MiniFs.Client
import MiniFs.Theorems.CatCount
import Mathlib.Algebra.Order.BigOperators.Group.List

/-! # Client and server in step

The command loop of the client and the loop of `interpret`, over two FIFO queues. Each command line is one exchange: a
status, or status 2, a count and as many records as it says. In a run of which each request is answered so, the server
waits for a request and no message is in flight whenever the client is at its prompt. -/

namespace MiniFs
open Interact Memory FileTree

/-! ## Exchanges -/

/-- A line that the user types. -/
structure CommandLine where
  text : Str
  nul : NulFree text
  short : text.length < 127

def commandLines (texts : List Str) (h : ∀ text ∈ texts, NulFree text ∧ text.length < 127) : List CommandLine :=
  texts.pmap (fun text h => ⟨text, h.1, h.2⟩) h

/-- The messages are strings that `get_msg` takes as a whole. -/
def Fits (answer : Msg → Prop) : Prop := ∀ m, answer m → ∃ str : Str, m = packet str ∧ str.length < bufferSize - 1

/-- Ask for each of the answers and receive it. -/
def requests (answers : List (Msg → Prop)) : Session :=
  answers.foldr (fun answer A => .say (packet (lit "EXPECT")) (.recv answer fun _ => A)) .done

/-- A line and its status. -/
def statusSession (line : Str) (statuses : List Str) : Session :=
  .say (packet line) (.recv (fun m => ∃ status ∈ statuses, m = packet status) fun _ => .done)

/-- A line and a listing. -/
def listSession (line : Str) (answers : List (Msg → Prop)) : Session :=
  .say (packet line) (.hear (packet (lit "2")) (.say (packet (lit "ACK"))
    (.hear (packet (numeral answers.length)) (requests answers))))

/-- The statuses without a listing, and how the client's round ends with each. -/
inductive Status : Prompt → Str → Prop
  | ok : Status .again (lit "0")
  | failed : Status .again (lit "4")
  | unknown : Status .again (lit "-1")
  | exit : Status .stop (lit "3")

/-- What a line leads to, and how the client's round ends: one status, or a count and as many answers. -/
inductive OneAnswer (line : Str) : Prompt → Session → Prop
  | status {statuses : List Str} {r : Prompt} (h : ∀ status ∈ statuses, Status r status) :
      OneAnswer line r (statusSession line statuses)
  | listing {answers : List (Msg → Prop)} (h : ∀ answer ∈ answers, Fits answer) (count : answers.length < 2 ^ 15) :
      OneAnswer line .again (listSession line answers)

theorem requests_dual (answers : List (Msg → Prop)) : (requests answers).dual = exchanges answers .done := by
  induction answers with
  | nil => rfl
  | cons answer answers ih =>
    show Session.hear _ (.send answer fun _ => (requests answers).dual) = _
    rw [ih]
    rfl

theorem Fits.ne_nil {answer : Msg → Prop} (h : Fits answer) {m : Msg} (hm : answer m) : m ≠ [] := by
  obtain ⟨str, rfl, -⟩ := h m hm
  exact packet_ne_nil str

theorem requests_closing {answers : List (Msg → Prop)} (h : ∀ answer ∈ answers, Fits answer) :
    (requests answers).Closing ∧ ¬(requests answers).Listens := by
  induction answers with
  | nil => exact ⟨Session.closing_done, Session.not_done_listens⟩
  | cons answer answers ih =>
    obtain ⟨hc, hl⟩ := ih fun a ha => h a (List.mem_cons_of_mem _ ha)
    have hrecv : (Session.recv answer fun _ => requests answers).Closing := fun m hm =>
      ⟨(h answer List.mem_cons_self).ne_nil hm, hl, hc⟩
    exact ⟨hrecv.say trivial (packet_ne_nil _), Session.not_say_listens _ _⟩

theorem OneAnswer.closing {line : Str} {r : Prompt} {A : Session} (h : OneAnswer line r A) : A.Closing := by
  have hstatus : ∀ statuses, (statusSession line statuses).Closing := fun statuses => by
    have hrecv : (Session.recv (fun m => ∃ status ∈ statuses, m = packet status) fun _ => .done).Closing := by
      rintro m ⟨status, -, rfl⟩
      exact ⟨packet_ne_nil _, Session.not_done_listens, Session.closing_done⟩
    exact hrecv.say trivial (packet_ne_nil _)
  cases h with
  | status _ => exact hstatus _
  | @listing answers hfits _ =>
    obtain ⟨hc, hl⟩ := requests_closing hfits
    have hcount := hc.hear hl (packet_ne_nil (numeral answers.length))
    have hack := hcount.say (Session.hear_listens _ _) (packet_ne_nil (lit "ACK"))
    exact (hack.hear (Session.not_say_listens _ _) (packet_ne_nil _)).say (Session.hear_listens _ _) (packet_ne_nil _)

/-! ## The client's side -/

section
variable {S : Sig} {σ : Type} {X : Sem S σ} {t : σ}

theorem getMsg_answer {answer : Msg → Prop} (h : Fits answer) {Q : Option Str → σ × Session → Prop} {k : Msg → Session}
    (hQ : ∀ str : Str, answer (packet str) → Q (some ((packet str).takeWhile (· != 0))) (t, k (packet str))) :
    wp X.talk getMsg Q (t, .recv answer k) := by
  refine wp_talk_read.mpr ⟨_, _, rfl, fun m hm => ?_⟩
  obtain ⟨str, rfl, hlen⟩ := h m hm
  refine ⟨by rw [length_packet]; omega, ?_⟩
  rw [packet, List.getLast?_append, if_pos (by simp)]
  exact wp_ret.mpr (hQ str hm)

end

theorem getNum_status {statuses : List Str} (h : ∀ status ∈ statuses, NulFree status ∧ status.length < bufferSize - 1)
    {Q : Int → Unit × Session → Prop} (hQ : ∀ status ∈ statuses, Q (atoi status) ((), .done)) {X : Sem clientSig Unit} :
    wp X.talk getNum Q ((), .recv (fun m => ∃ status ∈ statuses, m = packet status) fun _ => .done) := by
  refine wp_bind.mpr (wp_bind.mpr (wp_talk_read.mpr ⟨_, _, rfl, ?_⟩))
  rintro m ⟨status, hin, rfl⟩
  obtain ⟨hnul, hlen⟩ := h status hin
  refine ⟨by rw [length_packet]; omega, ?_⟩
  rw [getMsg_packet hnul]
  exact wp_ret.mpr (wp_ret.mpr (wp_ret.mpr (hQ status hin)))

/-- The user, who types any line when the client asks for one more. -/
def userSem : Sem clientSig Unit where
  op _ _ o := ∃ line, NulFree line ∧ o = some (line, ())
  write _ _ o := o = none
  read _ _ o := o = none

section
variable {A : Session} {line : Str} {r : Prompt}

theorem records_talk {answers : List (Msg → Prop)} (h : ∀ answer ∈ answers, Fits answer) :
    wp userSem.talk (records answers.length) (fun r u => u.2 = .done ∧ r = .again) ((), requests answers) := by
  induction answers with
  | nil => exact wp_ret.mpr ⟨rfl, rfl⟩
  | cons answer answers ih =>
    rw [List.length_cons, records]
    refine wp_bind.mpr (sendMsg_talk (by decide) (wp_bind.mpr (getMsg_answer (h answer List.mem_cons_self) fun str hm => ?_)))
    exact ih fun a ha => h a (List.mem_cons_of_mem _ ha)

/-- The client's round follows the session. -/
theorem cmdLoop_talk (hlen : line.length < 127) (h : OneAnswer line r A) :
    wp userSem.talk (cmdLoop line) (fun r' u => u.2 = .done ∧ r' = r) ((), A) := by
  have hsend : line.length < bufferSize := by unfold bufferSize; omega
  have hstatus : ∀ statuses : List Str, (∀ status ∈ statuses, Status r status) →
      wp userSem.talk (cmdLoop line) (fun r' u => u.2 = .done ∧ r' = r) ((), statusSession line statuses) := by
    intro statuses hall
    refine wp_bind.mpr (sendMsg_talk hsend (wp_bind.mpr (getNum_status (fun status hin => ?_) fun status hin => ?_)))
    · rcases hall status hin with _ | _ | _ | _ <;> decide
    · rcases hall status hin with _ | _ | _ | _ <;> exact wp_ret.mpr ⟨rfl, rfl⟩
  cases h with
  | status hall => exact hstatus _ hall
  | @listing answers hfits hcount =>
    have hnum : (numeral answers.length).length < bufferSize - 1 := by
      have : (numeral answers.length).length ≤ 5 := length_numeral_le (by omega) (by omega)
      unfold bufferSize
      omega
    refine wp_bind.mpr (sendMsg_talk hsend (wp_bind.mpr (wp_bind.mpr ?_)))
    refine getMsgStr_talk (by decide) (by decide) (wp_ret.mpr ?_)
    rw [if_neg (by decide), if_neg (by decide), if_pos (by decide)]
    refine wp_bind.mpr (sendMsg_talk (by decide) (wp_bind.mpr (wp_bind.mpr ?_)))
    refine getMsgStr_talk (word_numeral _).nulFree hnum (wp_ret.mpr ?_)
    rw [atoi_numeral (by omega), Int.toNat_natCast]
    exact records_talk hfits

end

/-! ## The server's side -/

/-- What `ls` shows in full: a file that its directory lists, or a directory with at most four entries. -/
def Store.Shown (s : Store) (id : Int) : Prop :=
  (s.state id = some iOccupied ∧ s.state (s.zones id).parent = some dOccupied ∧
    id ∈ (s.listing (s.zones id).parent).map Prod.snd) ∨
  (s.state id = some dOccupied ∧ (s.listing id).length ≤ 4)

instance (s : Store) (id : Int) : Decidable (s.Shown id) := inferInstanceAs (Decidable (_ ∨ _))

/-- A file of which `cat` announces the right number of records. -/
def Store.Counted (s : Store) (id : Int) : Prop :=
  s.state id = some iOccupied → ∀ kids, FileLayout s.zones id kids → CatCounted (dataZones kids).length

/-- A listing that is shown in full. Without an argument `ls` also lists nothing where there is no directory. -/
def Orderly (s : Store) (pwd : PathT) : List Str → Prop
  | [t] => t = lit "ls" → s.Shown pwd.id ∨ s.state pwd.id ≠ some iOccupied ∧ s.state pwd.id ≠ some dOccupied
  | [t, a] => ∀ p, (s.lookup pwd a).1 = some p → (t = lit "ls" → s.Shown p.id) ∧ (t = lit "cat" → s.Counted p.id)
  | _ => True

/-- The server's side of a listing of `n` records. -/
def countedSession (n : Nat) (A : Session) : Session :=
  .say (packet (lit "2")) (.hear (packet (lit "ACK")) (.say (packet (numeral n)) A))

section
variable {P : Policy} {s : Store} {g : Image} {pwd : PathT} {path : Str} {p : PathT} {A : Session} {n : Nat}

theorem getPath_talk (hS : P.slots = true) (h : Inv s g) (hpwd : pwd.Below) (hpath : NulFree path)
    {Q : Option PathT × Str → Store × Session → Prop} (hQ : Q (s.lookup pwd path) (s, A)) :
    wp (storeSem P).talk (getPath pwd path) Q (s, A) :=
  look_talk (R := fun r => r = s.lookup pwd path) (getPath_spec hS h.dirs hpwd hpath ⟨rfl, rfl⟩) fun _ hr => hr ▸ hQ

theorem catInt_count (hn : n < 2 ^ 15) : catInt initStr (n : Int) = some (numeral n) := by
  have hlen : (numeral n).length ≤ 5 := length_numeral_le (by omega) (by omega)
  refine catInt_ofNat ?_
  show 0 + _ < 128
  omega

/-- `list` sends status 2 and the count, and goes on with what the argument denotes. -/
theorem list_talk (hS : P.slots = true) (h : Inv s g) (hpwd : pwd.Below) (hpath : NulFree path)
    (hp : (s.lookup pwd path).1 = some p) {b : Byte} (hb : s.state p.id = some b) (hn : n < 2 ^ 15)
    (hlen : wp (storeSem P) (getLsLen p.id) (fun r s' => s' = s ∧ r = n) s) {Q : Nat → Store × Session → Prop}
    (hQ : wp (storeSem P).talk (if b = iOccupied then do
        showFile p.id
        .ret 0
      else if b = dOccupied then do
        catDir p.id
        .ret 0
      else do
        let _ ← Fs.getState p.id
        .ret 1) Q (s, A)) :
    wp (storeSem P).talk (list pwd path) Q (s, countedSession n A) := by
  unfold list
  refine wp_bind.mpr (getPath_talk hS h hpwd hpath ?_)
  cases hl : s.lookup pwd path with
  | mk r cut =>
    rw [hl] at hp
    obtain rfl : r = some p := hp
    refine wp_bind.mpr (sendMsg_talk (by decide) (wp_bind.mpr (getMsgStr_talk (by decide) (by decide) ?_)))
    rw [if_pos rfl]
    refine wp_bind.mpr (look_talk (R := fun r => r = (n : Int)) hlen ?_)
    rintro r rfl
    rw [catInt_count hn]
    exact wp_bind.mpr (wp_ret.mpr (wp_bind.mpr (sendStr_talk (wp_bind.mpr (getState_talk hb hQ)))))

theorem isRecord_fits {e : Entry} (he : e.1.length ≤ 9) : Fits (IsRecord s e) := by
  rintro m ⟨mid, hmid, rfl⟩
  refine ⟨_, rfl, ?_⟩
  have htab : (lit "\t").length = 1 := rfl
  have hnl : (lit "\n").length = 1 := rfl
  simp only [List.cons_append, List.length_cons, List.length_append]
  unfold bufferSize
  omega

theorem isText_fits {text : Str} (h : text.length < 64) : Fits (IsText text) := by
  rintro m rfl
  refine ⟨_, rfl, ?_⟩
  unfold bufferSize
  omega

/-- A round of `list` on a file that `show_file` shows. -/
theorem list_file (hS : P.slots = true) (h : Inv s g) (hpwd : pwd.Below) (hpath : NulFree path)
    (hp : (s.lookup pwd path).1 = some p) (hfile : s.state p.id = some iOccupied)
    (hshow : wp (storeSem P).talk (showFile p.id) (fun _ u => u = (s, .done)) (s, A)) :
    wp (storeSem P).talk (list pwd path) (fun r u => r = 0 ∧ u = (s, .done)) (s, countedSession 1 A) := by
  have hlen : wp (storeSem P) (getLsLen p.id) (fun r s' => s' = s ∧ r = (1 : Nat)) s := by
    unfold getLsLen
    refine wp_bind.mpr (getState_spec hfile ?_)
    rw [if_pos rfl]
    exact wp_ret.mpr ⟨rfl, rfl⟩
  refine list_talk hS h hpwd hpath hp hfile (by decide) hlen ?_
  rw [if_pos rfl]
  exact wp_bind.mpr (wp_mono hshow fun _ _ hu => wp_ret.mpr ⟨rfl, hu⟩)

/-- A round of `list` on a directory that `cat_dir` shows. -/
theorem list_dir (hS : P.slots = true) (h : Inv s g) (hpwd : pwd.Below) (hpath : NulFree path)
    (hp : (s.lookup pwd path).1 = some p) (hdir : s.state p.id = some dOccupied) (hcount : (s.listing p.id).length < 2 ^ 15)
    (hcat : wp (storeSem P).talk (catDir p.id) (fun _ u => u = (s, .done)) (s, A)) :
    wp (storeSem P).talk (list pwd path) (fun r u => r = 0 ∧ u = (s, .done))
      (s, countedSession (s.listing p.id).length A) := by
  obtain ⟨es, rest, hd⟩ := h.dir_of_state hdir
  refine list_talk hS h hpwd hpath hp hdir hcount (h.getLsLen_listing hd) ?_
  rw [if_neg dOccupied_ne_iOccupied, if_pos rfl]
  exact wp_bind.mpr (wp_mono hcat fun _ _ hu => wp_ret.mpr ⟨rfl, hu⟩)

/-- A round of `list` on what `ls` shows in full. -/
theorem list_shown (hS : P.slots = true) (h : Inv s g) (hpwd : pwd.Below) (hpath : NulFree path)
    (hp : (s.lookup pwd path).1 = some p) (hshown : s.Shown p.id) :
    ∃ answers, (∀ answer ∈ answers, Fits answer) ∧ answers.length < 2 ^ 15 ∧
      wp (storeSem P).talk (list pwd path) (fun r u => r = 0 ∧ u = (s, .done))
        (s, countedSession answers.length (exchanges answers .done)) := by
  rcases hshown with ⟨hfile, hparent, hin⟩ | ⟨hdir, hfour⟩
  · obtain ⟨es, rest, hd⟩ := h.dir_of_state hparent
    rw [(h.dirChain hd).listing_eq] at hin
    obtain ⟨e, he, heq⟩ := List.mem_map.mp hin
    refine ⟨[IsRecord s e], ?_, Nat.one_lt_two_pow (by decide), list_file hS h hpwd hpath hp hfile (heq ▸ ?_)⟩
    · intro answer ha
      rw [List.mem_singleton.mp ha]
      exact isRecord_fits (Chain.short (h.rep _ _ hd) e he)
    · exact showFile_talk h.shown hd he (heq ▸ hfile) rfl
  · obtain ⟨es, rest, hd⟩ := h.dir_of_state hdir
    have hcount : (s.listing p.id).length < 2 ^ 15 := by omega
    refine ⟨(s.listing p.id).map (IsRecord s), ?_, by rwa [List.length_map], ?_⟩
    · intro answer ha
      obtain ⟨e, he, rfl⟩ := List.mem_map.mp ha
      rw [(h.dirChain hd).listing_eq] at he
      exact isRecord_fits (Chain.short (h.rep _ _ hd) e he)
    · rw [List.length_map]
      exact list_dir hS h hpwd hpath hp hdir hcount (h.shown.catDir_listing hd hfour rfl)

/-- `ls` without an argument lists nothing where there is no directory. -/
theorem list_nothing (hS : P.slots = true) (h : Inv s g) (hpwd : pwd.Below) (hpath : NulFree path)
    (hp : (s.lookup pwd path).1 = some p) (hfile : s.state p.id ≠ some iOccupied) (hdir : s.state p.id ≠ some dOccupied) :
    wp (storeSem P).talk (list pwd path) (fun r u => r = 1 ∧ u = (s, .done)) (s, countedSession 0 .done) := by
  obtain ⟨b, hb⟩ := (h.dirs.lookup_below hpwd hpath hp).state (s := s)
  have hbi : b ≠ iOccupied := fun heq => hfile (heq ▸ hb)
  have hbd : b ≠ dOccupied := fun heq => hdir (heq ▸ hb)
  have hlen : wp (storeSem P) (getLsLen p.id) (fun r s' => s' = s ∧ r = (0 : Nat)) s := by
    unfold getLsLen
    refine wp_bind.mpr (getState_spec hb ?_)
    rw [if_neg hbi, if_neg hbd]
    exact wp_ret.mpr ⟨rfl, rfl⟩
  refine list_talk hS h hpwd hpath hp hb (by decide) hlen ?_
  rw [if_neg hbi, if_neg hbd]
  exact wp_bind.mpr (getState_talk hb (wp_ret.mpr ⟨rfl, rfl⟩))

/-! ## `cat` -/

theorem length_texts_le {n : Nat} {t : FileTree n} : t.texts.length ≤ t.ids.length := by
  induction n with
  | zero => exact Nat.le_refl 1
  | succ n ih =>
    obtain ⟨id, kids⟩ := t
    show (kids.flatMap texts).length ≤ (id :: kids.flatMap ids).length
    rw [List.length_cons, List.length_flatMap, List.length_flatMap]
    exact Nat.le_succ_of_le (List.sum_le_sum fun t _ => ih)

theorem FileTree.Rep.texts_short {zones : Int → Zone} {n : Nat} {t : FileTree n} (h : t.Rep zones) :
    ∀ text ∈ t.texts, text.length < 64 := by
  induction n with
  | zero =>
    intro text ht
    rw [List.mem_singleton.mp ht]
    exact Bytes.HasStr.length_lt h.2
  | succ n ih =>
    obtain ⟨id, kids⟩ := t
    intro text ht
    obtain ⟨t, hin, ht⟩ := List.mem_flatMap.mp ht
    exact ih (h.2.2 t hin) text ht

/-- The texts of a file are few, and each fits into a message. -/
theorem FileLayout.texts {id : Int} {kids : List Kid} (h : FileLayout s.zones id kids) :
    (dataZones kids).length < 2 ^ 15 ∧ ∀ text ∈ dataZones kids, text.length < 64 := by
  have hlt := h.length_ids_lt
  have hle : (dataZones kids).length ≤ (kids.flatMap (·.2.ids)).length := by
    unfold dataZones
    rw [List.length_flatMap, List.length_flatMap]
    exact List.sum_le_sum fun t _ => length_texts_le
  refine ⟨by omega, fun text ht => ?_⟩
  obtain ⟨t, hin, ht⟩ := List.mem_flatMap.mp ht
  exact (h.rep t hin).texts_short text ht

/-- A round of `cat` on a file that is counted right. -/
theorem cat_texts (hS : P.slots = true) (h : Inv s g) (hpwd : pwd.Below) (hpath : NulFree path)
    (hp : (s.lookup pwd path).1 = some p) {kids : List Kid} (hn : g.node p.id = some (.file kids))
    (hcounted : s.Counted p.id) :
    wp (storeSem P).talk (cat pwd path) (fun r u => r = 0 ∧ u = (s, .done))
      (s, countedSession (dataZones kids).length (exchanges ((dataZones kids).map IsText) .done)) := by
  have hfile : s.state p.id = some iOccupied := h.state _ _ hn
  obtain ⟨hrep, hsize⟩ : FileRep s p.id kids ∧ _ := h.rep _ _ hn
  have hlayout := hrep.layout
  obtain ⟨hlen, -⟩ := hlayout.texts
  have hcount : getCatLen ((s.zones p.id).size % 2 ^ 32).toNat = (dataZones kids).length := by
    have hlt := hlayout.length_ids_lt
    have hnat : ((s.zones p.id).size % 2 ^ 32).toNat = 1 + (kids.flatMap (·.2.ids)).length := by
      rw [hsize]
      omega
    rw [hnat]
    exact hlayout.getCatLen_iff.mpr (hcounted hfile kids hlayout)
  unfold cat
  refine wp_bind.mpr (getPath_talk hS h hpwd hpath ?_)
  cases hl : s.lookup pwd path with
  | mk r cut =>
    rw [hl] at hp
    obtain rfl : r = some p := hp
    refine wp_bind.mpr (getState_talk hfile ?_)
    rw [if_pos rfl]
    refine wp_bind.mpr (readZone_talk (h.le hn) ?_)
    refine wp_bind.mpr (sendMsg_talk (by decide) (wp_bind.mpr (getMsgStr_talk (by decide) (by decide) ?_)))
    rw [if_pos rfl, hcount, catInt_count hlen]
    refine wp_bind.mpr (wp_ret.mpr (wp_bind.mpr (sendStr_talk (wp_bind.mpr ?_))))
    exact hlayout.catFile_talk (h.le hn) (wp_ret.mpr ⟨rfl, rfl⟩)

theorem cat_counted (hS : P.slots = true) (h : Inv s g) (hpwd : pwd.Below) (hpath : NulFree path)
    (hp : (s.lookup pwd path).1 = some p) (hfile : s.state p.id = some iOccupied) (hcounted : s.Counted p.id) :
    ∃ answers, (∀ answer ∈ answers, Fits answer) ∧ answers.length < 2 ^ 15 ∧
      wp (storeSem P).talk (cat pwd path) (fun r u => r = 0 ∧ u = (s, .done))
        (s, countedSession answers.length (exchanges answers .done)) := by
  obtain ⟨kids, hn⟩ := h.file_of_state hfile
  have hrep : FileRep s p.id kids ∧ _ := h.rep _ _ hn
  obtain ⟨hlen, hshort⟩ := hrep.1.layout.texts
  refine ⟨(dataZones kids).map IsText, ?_, by rwa [List.length_map], ?_⟩
  · intro answer ha
    obtain ⟨text, ht, rfl⟩ := List.mem_map.mp ha
    exact isText_fits (hshort text ht)
  · rw [List.length_map]
    exact cat_texts hS h hpwd hpath hp hn hcounted

/-- `ls` of a path that leads nowhere -/
theorem list_missing (hS : P.slots = true) (h : Inv s g) (hpwd : pwd.Below) {a : Str} (ha : NulFree a)
    (hl : (s.lookup pwd a).1 = none) : wp (storeSem P) (list pwd a) (fun r s' => s' = s ∧ r = 1) s := by
  unfold list
  refine wp_bind.mpr (getPath_spec hS h.dirs hpwd ha ?_)
  rw [← Prod.mk.eta (p := s.lookup pwd a), hl]
  exact wp_ret.mpr ⟨rfl, rfl⟩

/-- `cat` of a path that leads to no file -/
theorem cat_missing (hS : P.slots = true) (h : Inv s g) (hpwd : pwd.Below) {a : Str} (ha : NulFree a)
    (hfile : ¬∃ p, (s.lookup pwd a).1 = some p ∧ s.state p.id = some iOccupied) :
    wp (storeSem P) (cat pwd a) (fun r s' => s' = s ∧ r = 1) s := by
  unfold cat
  refine wp_bind.mpr (getPath_spec hS h.dirs hpwd ha ?_)
  cases hl : s.lookup pwd a with
  | mk res cut =>
    rw [hl] at hfile
    cases res with
    | none => exact wp_ret.mpr ⟨rfl, rfl⟩
    | some p =>
      obtain ⟨b, hb⟩ := (h.dirs.lookup_below hpwd ha (p := p) (by rw [hl])).state (s := s)
      refine wp_bind.mpr (getState_spec hb ?_)
      rw [if_neg fun heq : b = iOccupied => hfile ⟨p, rfl, heq ▸ hb⟩]
      exact wp_ret.mpr ⟨rfl, rfl⟩

/-! ## A round of the server -/

/-- One of the statuses is sent. -/
def oneOf (statuses : List Str) : Session := .send (fun m => ∃ status ∈ statuses, m = packet status) fun _ => .done

theorem sendMsg_oneOf {statuses : List Str} {status : Str} {Q : Unit → Store × Session → Prop} (hin : status ∈ statuses)
    (hlen : status.length < bufferSize) (hQ : Q () (s, .done)) :
    wp (storeSem P).talk (sendMsg status) Q (s, oneOf statuses) := by
  unfold sendMsg
  rw [List.take_of_length_le (by omega)]
  exact wp_talk_write.mpr ⟨_, _, rfl, ⟨status, hin, rfl⟩, wp_ret.mpr hQ⟩

theorem reply_talk {status : Nat} {Q : Unit → Store × Session → Prop} (hQ : Q () (s, .done)) :
    wp (storeSem P).talk (reply status) Q (s, oneOf [lit "0", lit "4"]) := by
  unfold reply
  split
  · exact sendMsg_oneOf (by decide) (by decide) hQ
  · exact sendMsg_oneOf (by decide) (by decide) hQ

/-- What a round of the server leaves. -/
def Ended (r : Prompt) (o : Option PathT) (u : Store × Session) : Prop :=
  u.2 = .done ∧ (o = none → r = .stop) ∧ ∀ p, o = some p → r = .again ∧ (∃ g, Inv u.1 g) ∧ p.Below

theorem Ended.again (h : Inv s g) (hpwd : pwd.Below) : Ended .again (some pwd) (s, .done) :=
  ⟨rfl, nofun, fun p hp => by cases hp; exact ⟨rfl, ⟨g, h⟩, hpwd⟩⟩

theorem failure_failed {command : FsM Nat} (h : Inv s g) (hpwd : pwd.Below)
    (hc : wp (storeSem P) command (fun r s' => s' = s ∧ r = 1) s) :
    wp (storeSem P).talk (failure pwd command) (Ended .again) (s, oneOf [lit "4"]) := by
  unfold failure
  refine wp_bind.mpr (look_talk (R := fun r => r = 1) hc ?_)
  rintro r rfl
  rw [if_pos (by decide)]
  exact wp_bind.mpr (sendMsg_oneOf (by decide) (by decide) (wp_ret.mpr (.again h hpwd)))

theorem failure_shown {command : FsM Nat} (h : Inv s g) (hpwd : pwd.Below)
    (hc : wp (storeSem P).talk command (fun r u => r = 0 ∧ u = (s, .done)) (s, A)) :
    wp (storeSem P).talk (failure pwd command) (Ended .again) (s, A) := by
  unfold failure
  refine wp_seq hc ?_
  rintro r u ⟨rfl, rfl⟩
  rw [if_neg (by decide)]
  exact wp_ret.mpr (.again h hpwd)

theorem status_talk {command : FsM Nat} (hpwd : pwd.Below) (hc : wp (storeSem P) command (fun _ s' => ∃ g', Inv s' g') s) :
    wp (storeSem P).talk (status pwd command) (Ended .again) (s, oneOf [lit "0", lit "4"]) := by
  unfold status
  refine wp_seq (wp_talk hc) ?_
  rintro n ⟨s', A'⟩ ⟨rfl, g', hinv⟩
  exact wp_bind.mpr (reply_talk (wp_ret.mpr (.again hinv hpwd)))

/-- The server's round follows the other side of an exchange. -/
theorem interpret_talk (hP : P.room = true) (hS : P.slots = true) (h : Inv s g) (hpwd : pwd.Below) {toks : List Str}
    (htoks : ∀ t ∈ toks, NulFree t) (hlens : ∀ t ∈ toks, t.length < 2 ^ 15) (hsafe : Safe s pwd toks)
    (hord : Orderly s pwd toks) (line : Str) :
    ∃ r A, OneAnswer line r (.say (packet line) A) ∧ wp (storeSem P).talk (interpret pwd toks) (Ended r) (s, A.dual) := by
  have hone : ∀ {r : Prompt} {answer : FsM (Option PathT)} (statuses : List Str), (∀ status ∈ statuses, Status r status) →
      wp (storeSem P).talk answer (Ended r) (s, oneOf statuses) →
      ∃ r A, OneAnswer line r (.say (packet line) A) ∧ wp (storeSem P).talk answer (Ended r) (s, A.dual) :=
    fun statuses hall hw => ⟨_, _, .status hall, hw⟩
  have hmany : ∀ {answer : FsM (Option PathT)} (answers : List (Msg → Prop)), (∀ answer ∈ answers, Fits answer) →
      answers.length < 2 ^ 15 →
      wp (storeSem P).talk answer (Ended .again) (s, countedSession answers.length (exchanges answers .done)) →
      ∃ r A, OneAnswer line r (.say (packet line) A) ∧ wp (storeSem P).talk answer (Ended r) (s, A.dual) :=
    fun answers hfits hcount hw => ⟨.again, _, .listing hfits hcount, by
      simp only [Session.dual_hear, Session.dual_say, requests_dual]
      exact hw⟩
  have hdot : NulFree (lit ".") := by decide
  have hfailed : ∀ status ∈ [lit "4"], Status .again status := fun status hin => List.mem_singleton.mp hin ▸ .failed
  have hstatus : ∀ status ∈ [lit "0", lit "4"], Status .again status := fun status hin => by
    rcases List.mem_cons.mp hin with rfl | hin
    · exact .ok
    · exact hfailed status hin
  have hreplies := interpret_replies hP hS h hpwd htoks hlens hsafe Rules.any_follows
  generalize interpret pwd toks = answer at hreplies ⊢
  cases hreplies with
  | exit =>
    refine hone (r := .stop) [lit "3"] (fun status hin => ?_)
      (wp_bind.mpr (sendMsg_oneOf (by decide) (by decide) (wp_ret.mpr ?_)))
    · rw [List.mem_singleton.mp hin]
      exact .exit
    · exact ⟨rfl, fun _ => rfl, nofun⟩
  | unknown =>
    refine hone (r := .again) [lit "-1"] (fun status hin => ?_)
      (wp_bind.mpr (sendMsg_oneOf (by decide) (by decide) (wp_ret.mpr (.again h hpwd))))
    rw [List.mem_singleton.mp hin]
    exact .unknown
  | status hc =>
    refine hone (r := .again) [lit "0", lit "4"] hstatus (status_talk hpwd (wp_mono hc ?_))
    rintro - s' ⟨g', -, hinv⟩
    exact ⟨g', hinv⟩
  | @cd a ha =>
    refine hone (r := .again) [lit "0", lit "4"] hstatus ?_
    have hchange : wp (storeSem P) (change pwd a) (fun c s' => s' = s ∧ c.2.Below) s :=
      change_spec hS h hpwd ha ⟨rfl, hpwd⟩ fun p hp _ => ⟨rfl, h.dirs.lookup_below hpwd ha hp⟩
    refine wp_bind.mpr (look_talk (R := fun c => c.2.Below) hchange fun c hc => wp_bind.mpr ?_)
    exact reply_talk (wp_ret.mpr (.again h hc))
  | here =>
    rcases hord rfl with hshown | ⟨hfile, hdir⟩
    · obtain ⟨answers, hfits, hcount, hlist⟩ := list_shown hS h hpwd hdot rfl hshown
      refine hmany answers hfits hcount (wp_seq hlist ?_)
      rintro r u ⟨-, rfl⟩
      exact wp_ret.mpr (.again h hpwd)
    · have hlist := list_nothing hS h hpwd hdot rfl hfile hdir
      refine hmany [] (fun _ ha => absurd ha List.not_mem_nil) (by decide) (wp_seq hlist ?_)
      rintro r u ⟨-, rfl⟩
      exact wp_ret.mpr (.again h hpwd)
  | @ls a ha =>
    cases hl : (s.lookup pwd a).1 with
    | none =>
      exact hone (r := .again) [lit "4"] hfailed (failure_failed h hpwd (list_missing hS h hpwd ha hl))
    | some p =>
      obtain ⟨answers, hfits, hcount, hlist⟩ := list_shown hS h hpwd ha hl ((hord p hl).1 rfl)
      exact hmany answers hfits hcount (failure_shown h hpwd hlist)
  | @cat a ha =>
    by_cases hfile : ∃ p, (s.lookup pwd a).1 = some p ∧ s.state p.id = some iOccupied
    · obtain ⟨p, hl, hfile⟩ := hfile
      obtain ⟨answers, hfits, hcount, hcat⟩ := cat_counted hS h hpwd ha hl hfile ((hord p hl).2 rfl)
      exact hmany answers hfits hcount (failure_shown h hpwd hcat)
    · exact hone (r := .again) [lit "4"] hfailed (failure_failed h hpwd (cat_missing hS h hpwd ha hfile))

end

/-! ## Runs of the two loops -/

/-- The two loops; a line may be typed in the states that `ok` admits. -/
def shellLink (P : Policy) (ok : Store → PathT → List Str → Prop) :
    Link clientSig fsSig Unit Store CommandLine Prompt PathT where
  X := userSem
  Y := storeSem P
  call line := cmdLoop line.text
  more r := decide (r = .again)
  serve := serve
  ok pwd s line := ok s pwd (toks line.text 6)

/-- The two rounds that a line leads to: the client's along a session with one answer, and the server's along the other
    side of it. -/
def Exchange (P : Policy) (pwd : PathT) (s : Store) (line : CommandLine) (r : Prompt) (pwd' : Option PathT)
    (s' : Store) : Prop :=
  ∃ A, OneAnswer line.text r A ∧ Runs userSem.talk (cmdLoop line.text) ((), A) (some (r, ((), .done))) ∧
    Runs (storeSem P).talk (serve pwd) (s, A.dual) (some (pwd', (s', .done)))

/-- The client waits for a line. -/
structure AtPrompt (g : Config clientSig fsSig Unit Store CommandLine Prompt PathT) : Prop where
  cur : g.cur = none
  last : ∀ x, g.log.getLast? = some x → x.2 = .again

/-- The server waits for a request, nothing is in flight, and each line so far was one exchange. -/
structure InStep (P : Policy) (s₀ : Store) (g : Config clientSig fsSig Unit Store CommandLine Prompt PathT) : Prop where
  up : g.up = []
  down : g.down = []
  waits : ∃ pwd, g.srv = .idle pwd ∧ Calls (Exchange P) .root s₀ g.log (some pwd) g.sst
  served : g.served = g.log.length

/-- A request that removes no more than it can, and a listing that is shown in full. -/
def OneReply (s : Store) (pwd : PathT) (toks : List Str) : Prop := Safe s pwd toks ∧ Orderly s pwd toks

section
variable {P : Policy} {s : Store} {g : Image} {pwd : PathT}

theorem serve_talk (hP : P.room = true) (hS : P.slots = true) (h : Inv s g) (hpwd : pwd.Below) (line : CommandLine)
    (hok : OneReply s pwd (toks line.text 6)) :
    ∃ r A, OneAnswer line.text r A ∧ wp (storeSem P).talk (serve pwd) (Ended r) (s, A.dual) := by
  have hlens : ∀ t ∈ toks line.text 6, t.length < 2 ^ 15 := fun t ht => by
    have := toks_length line.text 6 t ht
    have := line.short
    omega
  obtain ⟨r, A, hone, hw⟩ := interpret_talk hP hS h hpwd (toks_nulFree line.text 6) hlens hok.1 hok.2 line.text
  exact ⟨r, _, hone, wp_bind.mpr (getMsg_talk line.nul line.short hw)⟩

/-- What is left after an exchange of the run. -/
def Kept (P : Policy) (pwd : PathT) (s : Store) (line : CommandLine) (r : Prompt) (pwd' : Option PathT) (s' : Store) : Prop :=
  Exchange P pwd s line r pwd' s' ∧ (pwd' = none → r = .stop) ∧ ∀ p, pwd' = some p → (∃ g, Inv s' g) ∧ p.Below

theorem shellLink_atomic (hP : P.room = true) (hS : P.slots = true) :
    (shellLink P OneReply).Atomic (fun pwd s => (∃ g, Inv s g) ∧ pwd.Below) (Kept P) where
  waits := fun _ => ⟨_, _, rfl⟩
  session := by
    rintro pwd s line ⟨⟨g, h⟩, hpwd⟩ hok
    obtain ⟨r, A, hone, hw⟩ := serve_talk hP hS h hpwd line hok
    have hclient := wp_runs (cmdLoop_talk line.short hone)
    refine ⟨A, fun r' => r' = r ∧ Runs userSem.talk (cmdLoop line.text) ((), A) (some (r, ((), .done))),
      fun pwd' s' => Ended r pwd' (s', .done) ∧ Runs (storeSem P).talk (serve pwd) (s, A.dual) (some (pwd', (s', .done))),
      hone.closing, fun _ => wp_mono hclient ?_, wp_mono (wp_runs hw) ?_, ?_⟩
    · rintro r' ⟨⟨⟩, A'⟩ ⟨⟨rfl, rfl⟩, hr⟩
      exact ⟨rfl, rfl, hr⟩
    · rintro pwd' ⟨s', A'⟩ ⟨⟨rfl, hend⟩, hr⟩
      exact ⟨rfl, ⟨rfl, hend⟩, hr⟩
    · rintro r' pwd' s' ⟨rfl, hcr⟩ ⟨⟨-, hstop, hsome⟩, hsr⟩
      exact ⟨⟨A, hone, hcr, hsr⟩, hstop, fun p hp => (hsome p hp).2⟩
  more := by
    rintro pwd s line r s' - - ⟨-, hstop, -⟩
    rw [hstop rfl]
    rfl
  inv := fun pwd s line r pwd' s' _ _ hk => hk.2.2 pwd' rfl

/-- In a run of which every request is answered once, the two are in step whenever the client waits for a line. -/
theorem in_step_of_orderly_run (s : Store) (lines : List CommandLine)
    (g : Config clientSig fsSig Unit Store CommandLine Prompt PathT) (h : Formatted s)
    (hr : (shellLink .kept OneReply).Reaches (.initial lines () .root s) g) (hprompt : AtPrompt g) : InStep .kept s g := by
  have hgood := (shellLink_atomic (P := .kept) rfl rfl).good ⟨⟨.start, h.inv⟩, PathT.root_below⟩ hr
  cases hgood with
  | prompt pwd hcur hup hdown hsrv hcalls hinv hstop hserved =>
    cases pwd with
    | some pwd => exact ⟨hup, hdown, ⟨pwd, hsrv, hcalls.mono fun _ _ _ _ _ _ hk => hk.1⟩, hserved⟩
    | none =>
      generalize hlog : g.log = log at hcalls
      cases hcalls with
      | @concat log k t c r k' t' _ hk =>
        have hlast := hprompt.last (c, r) (by rw [hlog, List.getLast?_concat])
        rw [show r = .stop from hk.2.1 rfl] at hlast
        cases hlast
  | talk c p k t A U Qc Qs n hcur =>
    rw [hprompt.cur] at hcur
    cases hcur

end

theorem AtPrompt.of_log {g : Config clientSig fsSig Unit Store CommandLine Prompt PathT} {n : Nat}
    (hcur : g.cur.isNone = true) (hlog : g.log.map Prod.snd = List.replicate n .again) : AtPrompt g := by
  refine ⟨Option.isNone_iff_eq_none.mp hcur, fun x hx => ?_⟩
  have hin : x.2 ∈ g.log.map Prod.snd := List.mem_map_of_mem (List.mem_of_getLast? hx)
  rw [hlog] at hin
  exact List.eq_of_mem_replicate hin

/-- A user who types an empty line when asked for one more. -/
def userMachine : Machine clientSig Unit where
  op _ _ := some (([] : Str), ())
  write _ _ := none
  read _ _ := none

theorem userMachine_of : userMachine.Of userSem where
  op := fun _ _ _ hp => by
    cases hp
    exact ⟨[], .nil, rfl⟩
  write := fun _ _ _ hp => nomatch hp
  read := fun _ _ _ hp => nomatch hp

/-- A schedule of the lines from a formatted disk on; it ends before a line that does not pass the check. -/
def played (P : Policy) (ok : Store → PathT → List Str → Prop) (check : PathT → Store → CommandLine → Bool)
    (lines : List CommandLine) : Config clientSig fsSig Unit Store CommandLine Prompt PathT :=
  (shellLink P ok).plays check userMachine storeMachine 200 (.initial lines () .root emptyDisk)

theorem played_reaches {P : Policy} {ok : Store → PathT → List Str → Prop} {check : PathT → Store → CommandLine → Bool}
    {lines : List CommandLine} (hok : ∀ pwd s line, check pwd s line = true → ok s pwd (toks line.text 6)) :
    (shellLink P ok).Reaches (.initial lines () .root emptyDisk) (played P ok check lines) :=
  Link.plays_reaches userMachine_of (storeMachine_of P) 200 hok

/-! ## Checking a request -/

/-- A check of `OneReply` that takes a file for shown in full only if it has no index zone. -/
def checkReply (s : Store) (pwd : PathT) (toks : List Str) : Bool :=
  decide (Safe s pwd toks) && match toks with
    | [t] => t ≠ lit "ls" || decide (s.Shown pwd.id)
    | [t, a] => (s.lookup pwd a).1.all fun p =>
        (t ≠ lit "ls" || decide (s.Shown p.id)) && (t ≠ lit "cat" || (s.zones p.id).ptr 20 = 0)
    | _ => true

section
variable {s : Store} {pwd : PathT}

/-- A file without an index zone is counted right. -/
theorem Store.counted_of_ptr {id : Int} (h : (s.zones id).ptr 20 = 0) : s.Counted id := by
  intro _ kids hlayout
  have hlen : kids.length ≤ 20 := by
    have := (hlayout.holds.eq_zero_iff (by decide)).mp h
    rwa [List.length_map] at this
  have hone : ∀ t ∈ kids, t.2.texts.length = 1 := fun t ht => by
    have hlevel : t.1 = 0 := by
      have hmem : t.1 ∈ (List.range kids.length).map ptrLevel := hlayout.levels ▸ List.mem_map_of_mem ht
      obtain ⟨i, hi, heq⟩ := List.mem_map.mp hmem
      have := List.mem_range.mp hi
      rw [← heq]
      exact if_pos (by omega)
    obtain ⟨n, t⟩ := t
    obtain rfl : n = 0 := hlevel
    rfl
  refine Or.inl ?_
  rw [dataZones, length_flatMap_const hone]
  omega

theorem oneReply_of_check {toks : List Str} (h : checkReply s pwd toks = true) : OneReply s pwd toks := by
  obtain ⟨hsafe, hlists⟩ := Bool.and_eq_true_iff.mp h
  refine ⟨of_decide_eq_true hsafe, ?_⟩
  have hor : ∀ {a b : Str} {p : Bool}, (a ≠ b || p) = true → a = b → p = true := fun hab heq => by
    simpa [heq] using hab
  match toks, hlists with
  | [t], hlists => exact fun ht => Or.inl (of_decide_eq_true (hor hlists ht))
  | [t, a], hlists =>
    intro p hp
    dsimp only at hlists
    rw [hp] at hlists
    obtain ⟨hls, hcat⟩ := Bool.and_eq_true_iff.mp hlists
    exact ⟨fun ht => of_decide_eq_true (hor hls ht), fun ht => Store.counted_of_ptr (of_decide_eq_true (hor hcat ht))⟩
  | [], _ => trivial
  | _ :: _ :: _ :: _, _ => trivial

/-- The check of a line that is typed. -/
def checkLine (pwd : PathT) (s : Store) (line : CommandLine) : Bool := checkReply s pwd (toks line.text 6)

theorem oneReply_of_checkLine (pwd : PathT) (s : Store) (line : CommandLine) (h : checkLine pwd s line = true) :
    OneReply s pwd (toks line.text 6) := oneReply_of_check h

end

theorem in_step_of_orderly_run_cd : ∃ g, g.log.length = 6 ∧ InStep .kept emptyDisk g := by
  let lines := commandLines [lit "mkdir d", lit "cd d", lit "touch a", lit "append a x", lit "cat a", lit "ls /"] (by decide)
  let g := played .kept OneReply checkLine lines
  have hplayed := @played_reaches .kept OneReply checkLine lines oneReply_of_checkLine
  have hlast : g.cur.isNone = true ∧ g.log.map Prod.snd = List.replicate 6 .again := by decide +kernel
  refine ⟨_, ?_, in_step_of_orderly_run emptyDisk lines _ emptyDisk_formatted hplayed (.of_log hlast.1 hlast.2)⟩
  exact (List.length_map _).symm.trans (congrArg List.length hlast.2)

/-- In a removed directory `ls .` sends a second status, which is still there at the next prompt. -/
theorem ls_removed_directory : ¬∀ s lines g, Formatted s →
    (shellLink .all fun _ _ _ => True).Reaches (.initial lines () .root s) g → AtPrompt g → InStep .all s g := by
  intro hall
  let lines := commandLines [lit "mkdir d", lit "cd d", lit "rmdir /d", lit "ls ."] (by decide)
  have hplayed := @played_reaches .all (fun _ _ _ => True) (fun _ _ _ => true) lines fun _ _ _ _ => trivial
  have hlast : (played .all (fun _ _ _ => True) (fun _ _ _ => true) lines).cur.isNone = true ∧
      (played .all (fun _ _ _ => True) (fun _ _ _ => true) lines).log.map Prod.snd = List.replicate 4 .again ∧
      (played .all (fun _ _ _ => True) (fun _ _ _ => true) lines).down = [packet (lit "4")] := by decide +kernel
  obtain ⟨hcur, hlog, hdown⟩ := hlast
  have hnil := (hall emptyDisk lines _ emptyDisk_formatted hplayed (.of_log hcur hlog)).down
  rw [hdown] at hnil
  cases hnil

end MiniFs
