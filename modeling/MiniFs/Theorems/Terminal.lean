import MiniFs.Shell
import MiniFs.Lib.Lockstep
import MiniFs.Theorems.FileCommands
import MiniFs.Theorems.Schedules
import MiniFs.Theorems.Strings

/-! # What is seen at the terminal

The lines that the user types and what the shell prints are a run of the abstract file system, through the shell's
connection to the file server, the file server, its cache, and its connection to the disk server. -/

namespace MiniFs
open Interact Memory

/-- A line that is typed at the prompt, what is printed until the next one, and what there is then. -/
def Files.Typed (pwd : PathT) (f : Files) (line : CommandLine) (shown : Prompt × Str) (pwd' : Option PathT) (f' : Files) :
    Prop :=
  ∃ out, shown.2 = lit "Command > " ++ out ∧ f.Answer pwd line.text (toks line.text 6) shown.1 out pwd' f'

/-! ## The client's side -/

theorem tracks_records (n : Nat) (out : Str) : Tracks (Shell.records n) (records n) out fun r _ b => r = b := by
  induction n generalizing out with
  | zero => exact .step rfl (.ret rfl)
  | succ n ih =>
    refine .lift fun _ => .lift fun msg => ?_
    cases msg with
    | none => exact .ret rfl
    | some msg => exact .step rfl (ih _)

/-- What the shell prints changes nothing of what it sends and does. -/
theorem tracks_cmdLoop (cmd out : Str) : Tracks (Shell.cmdLoop cmd) (cmdLoop cmd) out fun r _ b => r = b := by
  refine .step rfl (.lift fun _ => .lift fun r => .ite (fun _ => .ret rfl) fun _ => .ite (fun _ => ?_) fun _ =>
    .ite (fun _ => .lift fun _ => .lift fun _ => tracks_records _ _) fun _ => .ite (fun _ => .ret rfl) fun _ => ?_)
  · refine .lift fun cmd => .lift fun _ => .lift fun r => ?_
    by_cases hr : r ≠ 0
    · rw [if_pos hr]
      exact .step rfl (.ret rfl)
    · rw [if_neg hr]
      exact .ret rfl
  · by_cases hr : r = 4
    · rw [if_pos hr]
      exact .step rfl (.ret rfl)
    · rw [if_neg hr]
      exact .step rfl (.ret rfl)

/-- What is printed of a status, and how the round ends. -/
inductive Says (line : Str) : Str → Prompt → Str → Prop
  | report (ok : Bool) : Says line (if ok then lit "0" else lit "4") .again (Files.report line ok)
  | unknown : Says line (lit "-1") .again (line ++ lit ": command not found.\n")
  | exit : Says line (lit "3") .stop []

/-- What the answers of a listing say, one text each. -/
def Texts (answers : List (Msg → Prop)) (texts : List Str) : Prop :=
  List.Forall₂ (fun answer text => answer (packet text)) answers texts

section
variable {line msg out : Str} {r : Prompt} {answers : List (Msg → Prop)}

theorem Says.status (h : Says line msg r out) : Status r msg := by
  cases h with
  | report ok =>
    cases ok with
    | true => exact .ok
    | false => exact .failed
  | unknown => exact .unknown
  | exit => exact .exit

theorem cmdLoop_prints (hlen : line.length < 127) (h : Says line msg r out) :
    wp userSem.talk (Shell.cmdLoop line []) (fun q u => u.2 = .done ∧ q.1 = r ∧ q.2 = lit "Command > " ++ out)
      ((), statusSession line [msg]) := by
  have hsend : line.length < bufferSize := by unfold bufferSize; omega
  unfold Shell.cmdLoop
  refine wp_stateBind.mpr (wp_ret.mpr ?_)
  refine wp_stateLift.mpr (sendMsg_talk hsend (wp_stateLift.mpr (getNum_status (fun status hin => ?_) fun status hin => ?_)))
  · rw [List.mem_singleton.mp hin]
    rcases h.status with _ | _ | _ | _ <;> decide
  · rw [List.mem_singleton.mp hin]
    cases h with
    | report ok =>
      cases ok with
      | true => exact wp_ret.mpr ⟨rfl, rfl, rfl⟩
      | false => exact wp_ret.mpr ⟨rfl, rfl, rfl⟩
    | unknown => exact wp_ret.mpr ⟨rfl, rfl, rfl⟩
    | exit => exact wp_ret.mpr ⟨rfl, rfl, rfl⟩

theorem records_prints (h : ∀ answer ∈ answers, Fits answer)
    (hnul : ∀ answer ∈ answers, ∀ text, answer (packet text) → NulFree text) (out : Str) :
    wp userSem.talk (Shell.records answers.length out) (fun q u => u.2 = .done ∧ q.1 = .again ∧
      ∃ texts, Texts answers texts ∧ q.2 = out ++ (texts.flatten ++ lit "\n")) ((), requests answers) := by
  induction answers generalizing out with
  | nil => exact wp_ret.mpr ⟨rfl, rfl, [], .nil, rfl⟩
  | cons answer answers ih =>
    rw [List.length_cons, Shell.records]
    refine wp_stateLift.mpr (sendMsg_talk (by decide) (wp_stateLift.mpr (getMsg_answer (h answer List.mem_cons_self)
      fun text ht => ?_)))
    rw [packet, takeWhile_nul (hnul answer List.mem_cons_self text ht)]
    refine wp_mono (ih (fun a ha => h a (List.mem_cons_of_mem _ ha)) (fun a ha => hnul a (List.mem_cons_of_mem _ ha)) _) ?_
    rintro q u ⟨hu, hr, texts, htexts, hout⟩
    refine ⟨hu, hr, text :: texts, .cons ht htexts, ?_⟩
    rw [hout, List.flatten_cons, List.append_assoc, List.append_assoc]

theorem cmdLoop_lists (hlen : line.length < 127) (h : ∀ answer ∈ answers, Fits answer) (hcount : answers.length < 2 ^ 15)
    (hnul : ∀ answer ∈ answers, ∀ text, answer (packet text) → NulFree text) :
    wp userSem.talk (Shell.cmdLoop line []) (fun q u => u.2 = .done ∧ q.1 = .again ∧
      ∃ texts, Texts answers texts ∧ q.2 = lit "Command > " ++ (texts.flatten ++ lit "\n"))
      ((), listSession line answers) := by
  have hsend : line.length < bufferSize := by unfold bufferSize; omega
  have hnum : (numeral answers.length).length < bufferSize - 1 := by
    have : (numeral answers.length).length ≤ 5 := length_numeral_le (by omega) (by omega)
    unfold bufferSize
    omega
  unfold Shell.cmdLoop
  refine wp_stateBind.mpr (wp_ret.mpr ?_)
  refine wp_stateLift.mpr (sendMsg_talk hsend (wp_stateLift.mpr (wp_bind.mpr ?_)))
  refine getMsgStr_talk (by decide) (by decide) (wp_ret.mpr ?_)
  rw [if_neg (by decide), if_neg (by decide), if_pos (by decide)]
  refine wp_stateLift.mpr (sendMsg_talk (by decide) (wp_stateLift.mpr (wp_bind.mpr ?_)))
  refine getMsgStr_talk (word_numeral _).nulFree hnum (wp_ret.mpr ?_)
  rw [atoi_numeral (by omega), Int.toNat_natCast]
  exact records_prints h hnul _

end

/-! ## Listings -/

section
variable {P : Policy} {s : Store} {g : Image} {pwd p : PathT} {path : Str} {e : Entry} {id : Int} {kids : List Kid}
variable {answers : List (Msg → Prop)} {text : Str} {texts : List Str}

theorem view_kind : s.view.kind id = if s.state id = some dOccupied then 100 else 45 := by
  unfold Files.kind Store.view
  by_cases hdir : s.state id = some dOccupied
  · rw [if_pos hdir, if_pos hdir]
  · rw [if_neg hdir, if_neg hdir]
    by_cases hfile : s.state id = some iOccupied
    · rw [if_pos hfile]
    · rw [if_neg hfile]

theorem IsRow.isLine (h : IsRow s e (packet text)) : s.view.IsLine e text := by
  obtain ⟨⟨mid, -, heq⟩, -⟩ := h
  exact ⟨mid, by rw [view_kind]; exact List.append_cancel_right heq⟩

theorem IsRow.nulFree (h : IsRow s e (packet text)) : NulFree text := nulFree_of_isStr h.2

theorem FileTree.Rep.texts_nulFree {zones : Int → Zone} {n : Nat} {t : FileTree n} (h : t.Rep zones) :
    ∀ text ∈ t.texts, NulFree text := by
  induction n with
  | zero =>
    intro text ht
    rw [List.mem_singleton.mp ht]
    exact h.2.nulFree
  | succ n ih =>
    obtain ⟨id, kids⟩ := t
    intro text ht
    obtain ⟨t, hin, ht⟩ := List.mem_flatMap.mp ht
    exact ih (h.2.2 t hin) text ht

/-- What a listing sends, each a string that the client takes as a whole. -/
structure Listing (P : Policy) (s : Store) (answers : List (Msg → Prop)) (command : FsM Nat) (r : Nat) : Prop where
  fits : ∀ answer ∈ answers, Fits answer
  count : answers.length < 2 ^ 15
  nul : ∀ answer ∈ answers, ∀ text, answer (packet text) → NulFree text
  talk : wp (storeSem P).talk command (fun r' u => r' = r ∧ u = (s, .done))
    (s, countedSession answers.length (exchanges answers .done))

/-- `ls` of what it shows in full. -/
theorem list_lists (hS : P.slots = true) (h : Inv s g) (hpwd : pwd.Below) (hpath : NulFree path)
    (hp : (s.lookup pwd path).1 = some p) (hshown : s.Shown p.id) :
    ∃ answers, Listing P s answers (list pwd path) 0 ∧ ∀ texts, Texts answers texts → s.view.Lists p.id texts := by
  have hfits : ∀ {d : Int} {es : List Entry} {rest : List Seg} {e : Entry}, g.node d = some (.dir es rest) →
      e ∈ entriesOf es rest → Fits (IsRow s e) := fun hd he m hm => isRecord_fits (Chain.short (h.rep _ _ hd) _ he) m hm.1
  rcases hshown with ⟨hfile, hparent, hin⟩ | ⟨hdir, hfour⟩
  · obtain ⟨es, rest, hd⟩ := h.dir_of_state hparent
    obtain ⟨kids, hk⟩ := h.file_of_state hfile
    rw [h.listing_eq hd] at hin
    obtain ⟨e, he, heq⟩ := List.mem_map.mp hin
    have hshow : wp (storeSem P).talk (showFile p.id) (fun _ u => u = (s, .done)) (s, exchanges [IsRecord s e] .done) :=
      heq ▸ showFile_talk h.shown hd he (heq ▸ hfile) rfl
    refine ⟨[IsRow s e], ⟨?_, Nat.one_lt_two_pow (by decide), ?_, ?_⟩, fun texts htexts => ?_⟩
    · exact fun answer ha => List.mem_singleton.mp ha ▸ hfits hd he
    · exact fun answer ha text ht => IsRow.nulFree (List.mem_singleton.mp ha ▸ ht)
    · exact list_file hS h hpwd hpath hp hfile ((sends_showFile p.id).exchanges hshow)
    · cases htexts with
      | cons hline hrest =>
        cases hrest
        exact .file (h.view_node hk) (h.view_node hd) he heq hline.isLine
  · obtain ⟨es, rest, hd⟩ := h.dir_of_state hdir
    have hcount : (s.listing p.id).length < 2 ^ 15 := by omega
    have hcat := (sends_catDir p.id).exchanges (h.shown.catDir_listing (P := P) hd hfour rfl)
    rw [List.map_map] at hcat
    refine ⟨(s.listing p.id).map (IsRow s), ⟨?_, by rwa [List.length_map], ?_, ?_⟩, fun texts htexts => ?_⟩
    · intro answer ha
      obtain ⟨e, he, rfl⟩ := List.mem_map.mp ha
      rw [h.listing_eq hd] at he
      exact hfits hd he
    · intro answer ha text ht
      obtain ⟨e, -, rfl⟩ := List.mem_map.mp ha
      exact IsRow.nulFree ht
    · rw [List.length_map]
      exact list_dir hS h hpwd hpath hp hdir hcount hcat
    · refine .dir (if_pos hdir) ((List.forall₂_map_left_iff.mp htexts).imp fun e text hrow => ?_)
      exact IsRow.isLine hrow

/-- `cat` of a file that is counted right. -/
theorem cat_lists (hS : P.slots = true) (h : Inv s g) (hpwd : pwd.Below) (hpath : NulFree path)
    (hp : (s.lookup pwd path).1 = some p) (hfile : s.state p.id = some iOccupied) (hcounted : s.Counted p.id) :
    ∃ answers text, s.view p.id = some (.file text) ∧ Listing P s answers (cat pwd path) 0 ∧
      ∀ texts, Texts answers texts → texts.flatten = text := by
  obtain ⟨kids, hn⟩ := h.file_of_state hfile
  have hrep : FileRep s p.id kids ∧ _ := h.rep _ _ hn
  obtain ⟨hlen, hshort⟩ := hrep.1.layout.texts
  refine ⟨(dataZones kids).map IsText, content kids, h.view_node hn, ⟨?_, by rwa [List.length_map], ?_, ?_⟩,
    fun texts htexts => ?_⟩
  · intro answer ha
    obtain ⟨text, ht, rfl⟩ := List.mem_map.mp ha
    exact isText_fits (hshort text ht)
  · intro answer ha text' ht'
    obtain ⟨text, ht, rfl⟩ := List.mem_map.mp ha
    obtain rfl : text' = text := List.append_cancel_right (show packet text' = packet text from ht')
    obtain ⟨t, hin, ht⟩ := List.mem_flatMap.mp ht
    exact (hrep.1.rep t hin).texts_nulFree _ ht
  · rw [List.length_map]
    exact cat_texts hS h hpwd hpath hp hn hcounted
  · have heq : List.Forall₂ Eq (dataZones kids) texts := (List.forall₂_map_left_iff.mp htexts).imp fun text text' ht =>
      (List.append_cancel_right (show packet text' = packet text from ht)).symm
    rw [List.forall₂_eq_eq_eq] at heq
    rw [← heq, flatten_dataZones]

end

/-! ## Rounds -/

/-- The client's round after `line` and the server's `answer` are the two sides of one session; how it ends, what is
    printed, where the server goes on and what there is then are as `R` says, and the store keeps its invariant. -/
def Rounds (P : Policy) (s : Store) (line : Str) (answer : FsM (Option PathT))
    (R : Prompt → Str → Option PathT → Files → Prop) : Prop :=
  ∃ r A, ∃ Out : Str → Prop, OneAnswer line r (.say (packet line) A) ∧
    wp userSem.talk (Shell.cmdLoop line []) (fun q u => u.2 = .done ∧ q.1 = r ∧
      ∃ out, Out out ∧ q.2 = lit "Command > " ++ out) ((), .say (packet line) A) ∧
    wp (storeSem P).talk answer (fun o u => Ended r o u ∧ (∃ g, Inv u.1 g) ∧ ∀ out, Out out → R r out o u.1.view) (s, A.dual)

section
variable {P : Policy} {s : Store} {g : Image} {pwd : PathT} {path line : Str} {answers : List (Msg → Prop)}
variable {answer : FsM (Option PathT)} {command : FsM Nat} {R : Prompt → Str → Option PathT → Files → Prop}

theorem rounds_status {msg out : Str} {r : Prompt} (hlen : line.length < 127) (hsay : Says line msg r out)
    (hw : wp (storeSem P).talk answer (fun o u => Ended r o u ∧ (∃ g, Inv u.1 g) ∧ R r out o u.1.view) (s, oneOf [msg])) :
    Rounds P s line answer R := by
  refine ⟨r, _, (· = out), .status fun status (hin : status ∈ [msg]) => List.mem_singleton.mp hin ▸ hsay.status,
    wp_mono (cmdLoop_prints hlen hsay) ?_, wp_mono hw ?_⟩
  · rintro q u ⟨hu, hr, hout⟩
    exact ⟨hu, hr, out, rfl, hout⟩
  · rintro o u ⟨hend, hinv, hR⟩
    exact ⟨hend, hinv, fun _ heq => heq ▸ hR⟩

theorem rounds_listing {r : Nat} (hlen : line.length < 127) (hl : Listing P s answers command r)
    (hw : ∀ Q : Option PathT → Store × Session → Prop, Q (some pwd) (s, .done) →
      (∀ A, wp (storeSem P).talk command (fun r' u => r' = r ∧ u = (s, .done)) (s, A) → wp (storeSem P).talk answer Q (s, A)))
    (h : Inv s g) (hpwd : pwd.Below)
    (hR : ∀ texts, Texts answers texts → R .again (texts.flatten ++ lit "\n") (some pwd) s.view) :
    Rounds P s line answer R := by
  refine ⟨.again, _, fun out => ∃ texts, Texts answers texts ∧ out = texts.flatten ++ lit "\n", .listing hl.fits hl.count,
    wp_mono (cmdLoop_lists hlen hl.fits hl.count hl.nul) ?_, ?_⟩
  · rintro q u ⟨hu, hr, texts, htexts, hout⟩
    exact ⟨hu, hr, _, ⟨texts, htexts, rfl⟩, hout⟩
  · simp only [Session.dual_hear, Session.dual_say, requests_dual]
    refine hw _ ⟨.again h hpwd, ⟨g, h⟩, ?_⟩ _ hl.talk
    rintro out ⟨texts, htexts, rfl⟩
    exact hR texts htexts

/-! ## Answers -/

theorem rounds_does {words : List Str} (hlen : line.length < 127) (hpwd : pwd.Below)
    (hc : ∃ ok, wp (storeSem P) command (Leaves ok (s.view.Does pwd words ok)) s) :
    Rounds P s line (status pwd command) (s.view.Answer pwd line words) := by
  obtain ⟨ok, hc⟩ := hc
  refine rounds_status hlen (.report ok) ?_
  unfold status
  refine wp_seq (wp_talk hc) ?_
  rintro n ⟨s', A⟩ ⟨rfl, hn, ⟨g', h'⟩, hdoes⟩
  have hmsg : (if n ≠ 0 then lit "4" else lit "0") = if ok then lit "0" else lit "4" := by
    by_cases h0 : n = 0
    · rw [hn.mp h0, if_neg (not_not.mpr h0), if_pos rfl]
    · rw [Bool.eq_false_iff.mpr fun htrue => h0 (hn.mpr htrue), if_pos h0, if_neg Bool.false_ne_true]
  unfold reply
  rw [hmsg]
  refine wp_bind.mpr (sendMsg_oneOf (List.mem_singleton_self _) ?_ (wp_ret.mpr ⟨.again h' hpwd, ⟨g', h'⟩, .does hdoes⟩))
  cases ok <;> decide

/-- A command that fails without a change of the store. -/
theorem rounds_failure (hlen : line.length < 127) (h : Inv s g) (hpwd : pwd.Below)
    (hc : wp (storeSem P) command (fun r s' => s' = s ∧ r = 1) s)
    (hR : R .again (Files.report line false) (some pwd) s.view) : Rounds P s line (failure pwd command) R := by
  refine rounds_status hlen (.report false) ?_
  unfold failure
  refine wp_bind.mpr (look_talk (R := fun r => r = 1) hc ?_)
  rintro r rfl
  rw [if_pos (by decide)]
  exact wp_bind.mpr (sendMsg_oneOf (List.mem_singleton_self _) (by decide) (wp_ret.mpr ⟨.again h hpwd, ⟨g, h⟩, hR⟩))

/-- A command that sends a listing. -/
theorem rounds_shown (hlen : line.length < 127) (h : Inv s g) (hpwd : pwd.Below) (hl : Listing P s answers command 0)
    (hR : ∀ texts, Texts answers texts → R .again (texts.flatten ++ lit "\n") (some pwd) s.view) :
    Rounds P s line (failure pwd command) R := by
  refine rounds_listing hlen hl (fun Q hQ A hw => ?_) h hpwd hR
  unfold failure
  refine wp_seq hw ?_
  rintro r u ⟨rfl, rfl⟩
  rw [if_neg (by decide)]
  exact wp_ret.mpr hQ

theorem change_eq (hS : P.slots = true) (h : Inv s g) (hpwd : pwd.Below) (hpath : NulFree path) :
    wp (storeSem P) (change pwd path) (fun c s' => s' = s ∧
      ((c.1 = 0 ∧ (s.lookup pwd path).1 = some c.2 ∧ s.state c.2.id = some dOccupied) ∨
        (c = (1, pwd) ∧ ∀ p, (s.lookup pwd path).1 = some p → s.state p.id ≠ some dOccupied))) s := by
  have hbelow := fun q => h.dirs.lookup_below (p := q) hpwd hpath
  unfold change
  refine wp_bind.mpr (getPath_spec hS h.dirs hpwd hpath ?_)
  generalize s.lookup pwd path = r at hbelow
  obtain ⟨r, cut⟩ := r
  cases r with
  | none => exact wp_ret.mpr ⟨rfl, Or.inr ⟨rfl, nofun⟩⟩
  | some p =>
    obtain ⟨b, hb⟩ := (hbelow p rfl).state (s := s)
    refine wp_bind.mpr (getState_spec hb ?_)
    by_cases hdir : b = dOccupied
    · rw [if_neg (not_not.mpr hdir)]
      exact wp_ret.mpr ⟨rfl, Or.inl ⟨rfl, rfl, hdir ▸ hb⟩⟩
    · rw [if_pos hdir]
      refine wp_ret.mpr ⟨rfl, Or.inr ⟨rfl, fun q hq hs => ?_⟩⟩
      cases hq
      exact hdir (Option.some.inj (hb.symm.trans hs))

theorem rounds_cd (hS : P.slots = true) (hlen : line.length < 127) (h : Inv s g) (hpwd : pwd.Below) (hpath : NulFree path) :
    Rounds P s line (do
      let c ← change pwd path
      reply c.1
      .ret (some c.2)) (s.view.Answer pwd line [lit "cd", path]) := by
  have hlook : s.view.lookup pwd path = s.lookup pwd path := h.view_lookup hpath
  by_cases hdir : ∃ p, (s.lookup pwd path).1 = some p ∧ s.state p.id = some dOccupied
  · obtain ⟨p, hp, hdir⟩ := hdir
    refine rounds_status hlen (.report true) (wp_bind.mpr (look_talk (change_eq hS h hpwd hpath) ?_))
    rintro ⟨n, q⟩ (⟨rfl, hq, -⟩ | ⟨-, hno⟩)
    · obtain rfl := Option.some.inj (hp.symm.trans hq)
      obtain ⟨es, hes⟩ := h.view_dir_iff.mpr hdir
      refine wp_bind.mpr (sendMsg_oneOf (List.mem_singleton_self _) (show (lit "0").length < bufferSize by decide) ?_)
      exact wp_ret.mpr ⟨.again h (h.dirs.lookup_below hpwd hpath hp), ⟨g, h⟩, .cd (by rw [hlook, hp]) hes⟩
    · exact absurd hdir (hno p hp)
  · refine rounds_status hlen (.report false) (wp_bind.mpr (look_talk (change_eq hS h hpwd hpath) ?_))
    rintro ⟨n, q⟩ (⟨-, hq, hs⟩ | ⟨heq, -⟩)
    · exact absurd ⟨q, hq, hs⟩ hdir
    · cases heq
      refine wp_bind.mpr (sendMsg_oneOf (List.mem_singleton_self _) (show (lit "4").length < bufferSize by decide) ?_)
      refine wp_ret.mpr ⟨.again h hpwd, ⟨g, h⟩, .cdFails fun p es hp hes => hdir ⟨p, hlook ▸ hp, ?_⟩⟩
      exact h.view_dir_iff.mp ⟨es, hes⟩

theorem rounds_unknown {words : List Str} (hlen : line.length < 127) (h : Inv s g) (hpwd : pwd.Below)
    (hno : ¬Files.IsCommand words) :
    Rounds P s line (do
      sendMsg (lit "-1")
      .ret (some pwd)) (s.view.Answer pwd line words) := by
  refine rounds_status hlen .unknown (wp_bind.mpr ?_)
  exact sendMsg_oneOf (List.mem_singleton_self _) (by decide) (wp_ret.mpr ⟨.again h hpwd, ⟨g, h⟩, .unknown hno⟩)

theorem rounds_create (n : Node) (make : Int → UInt64 → Zone) (hP : P.room = true) (hS : P.slots = true)
    (hlen : line.length < 127) (h : Inv s g) (hpwd : pwd.Below) (hpath : NulFree path) {t : Str}
    (ht : t = lit "touch" ∨ t = lit "mkdir") (hb : Blank n make) (hn : IsState n.state)
    (hdoes : ∀ ok f', path.length ≤ 9 → s.view.Makes pwd path n.obj ok f' → s.view.Does pwd [t, path] ok f') :
    Rounds P s line (create (mkNode n.state make) pwd path) (s.view.Answer pwd line [t, path]) := by
  refine rounds_does hlen hpwd ?_
  by_cases hlong : path.length > 9
  · rw [if_pos hlong]
    exact ⟨false, wp_ret.mpr ⟨by decide, ⟨g, h⟩, .long ht hlong⟩⟩
  · rw [if_neg hlong]
    obtain ⟨ok, hok⟩ := exists_success (s.view.insertion pwd path ≠ none)
    have hname : ∀ d name, s.insertion pwd path = some (d, name) → name.length ≤ 9 := fun d name hi => by
      have := length_insertion hi
      omega
    refine ⟨ok, wp_mono (mkNode_makes hP hS h hpwd hpath hb hn hname hok) ?_⟩
    rintro r s' ⟨hr, hinv, hmakes⟩
    exact ⟨hr, hinv, hdoes _ _ (Nat.not_lt.mp hlong) hmakes⟩

theorem rounds_remove {remove : FsM (Nat × Str)} {words : List Str} {ids : Int → Node → List Int} (hlen : line.length < 127)
    (hpwd : pwd.Below)
    (hw : ∀ ok : Bool, (ok = true ↔ ∃ p, (s.lookup pwd path).1 = some p ∧ 4 ≤ p.id) →
      wp (storeSem P) remove (fun r s' => r.2 = (s.lookup pwd path).2 ∧ (r.1 = 0 ↔ ok = true) ∧
        AfterRemoval ids s g pwd path ok s') s)
    (hdoes : ∀ ok f', s.view.Removes pwd path ok f' → s.view.Does pwd words ok f') :
    Rounds P s line (status pwd do .ret (← remove).1) (s.view.Answer pwd line words) := by
  obtain ⟨ok, hok⟩ := exists_success (∃ p, (s.lookup pwd path).1 = some p ∧ 4 ≤ p.id)
  refine rounds_does hlen hpwd ⟨ok, wp_seq (hw ok hok) ?_⟩
  rintro r s' ⟨-, hr, hgone⟩
  exact wp_ret.mpr ⟨hr, hgone.inv, hdoes _ _ hgone.view⟩

/-- `ls` and `cat` with an argument. -/
theorem rounds_ls (hS : P.slots = true) (hlen : line.length < 127) (h : Inv s g) (hpwd : pwd.Below) (hpath : NulFree path)
    (hord : Orderly s pwd [lit "ls", path]) :
    Rounds P s line (failure pwd (list pwd path)) (s.view.Answer pwd line [lit "ls", path]) := by
  have hlook : s.view.lookup pwd path = s.lookup pwd path := h.view_lookup hpath
  cases hl : (s.lookup pwd path).1 with
  | none => exact rounds_failure hlen h hpwd (list_missing hS h hpwd hpath hl) (.lsFails (by rw [hlook, hl]))
  | some p =>
    obtain ⟨answers, hlist, hlists⟩ := list_lists (P := P) hS h hpwd hpath hl ((hord p hl).1 rfl)
    exact rounds_shown hlen h hpwd hlist fun texts htexts => .ls (by rw [hlook, hl]) (hlists texts htexts)

theorem rounds_cat (hS : P.slots = true) (hlen : line.length < 127) (h : Inv s g) (hpwd : pwd.Below) (hpath : NulFree path)
    (hord : Orderly s pwd [lit "cat", path]) :
    Rounds P s line (failure pwd (cat pwd path)) (s.view.Answer pwd line [lit "cat", path]) := by
  have hlook : s.view.lookup pwd path = s.lookup pwd path := h.view_lookup hpath
  by_cases hfile : ∃ p, (s.lookup pwd path).1 = some p ∧ s.state p.id = some iOccupied
  · obtain ⟨p, hl, hfile⟩ := hfile
    obtain ⟨answers, text, htext, hlist, hlists⟩ := cat_lists (P := P) hS h hpwd hpath hl hfile ((hord p hl).2 rfl)
    exact rounds_shown hlen h hpwd hlist fun texts htexts => hlists texts htexts ▸ .cat (by rw [hlook, hl]) htext
  · refine rounds_failure hlen h hpwd (cat_missing hS h hpwd hpath hfile) (.catFails fun p text hp ht => hfile ⟨p, ?_⟩)
    exact ⟨hlook ▸ hp, h.view_file_iff.mp ⟨text, ht⟩⟩

/-- `ls` without an argument. -/
theorem rounds_here (hS : P.slots = true) (hlen : line.length < 127) (h : Inv s g) (hpwd : pwd.Below)
    (hord : Orderly s pwd [lit "ls"]) :
    Rounds P s line (do
      let _ ← list pwd (lit ".")
      .ret (some pwd)) (s.view.Answer pwd line [lit "ls"]) := by
  have hdot : NulFree (lit ".") := by decide
  have hrest : ∀ {n : Nat} (Q : Option PathT → Store × Session → Prop), Q (some pwd) (s, .done) → ∀ A,
      wp (storeSem P).talk (list pwd (lit ".")) (fun r u => r = n ∧ u = (s, .done)) (s, A) →
      wp (storeSem P).talk (do
        let _ ← list pwd (lit ".")
        .ret (some pwd)) Q (s, A) := by
    intro n Q hQ A hw
    refine wp_seq hw ?_
    rintro r u ⟨-, rfl⟩
    exact wp_ret.mpr hQ
  rcases hord rfl with hshown | ⟨hfile, hdir⟩
  · obtain ⟨answers, hlist, hlists⟩ := list_lists (P := P) hS h hpwd hdot rfl hshown
    exact rounds_listing hlen hlist hrest h hpwd fun texts htexts => .here (hlists texts htexts)
  · have hlist : Listing P s [] (list pwd (lit ".")) 1 := ⟨fun _ ha => absurd ha List.not_mem_nil, by decide,
      fun _ ha => absurd ha List.not_mem_nil, list_nothing hS h hpwd hdot rfl hfile hdir⟩
    refine rounds_listing hlen hlist hrest h hpwd fun texts htexts => ?_
    cases htexts
    exact .here (.nothing (h.view_none_iff.mpr ⟨hfile, hdir⟩))

theorem interpret_rounds (hP : P.room = true) (hS : P.slots = true) (h : Inv s g) (hpwd : pwd.Below) {toks : List Str}
    (htoks : ∀ t ∈ toks, NulFree t) (hlens : ∀ t ∈ toks, t.length < 2 ^ 15) (hok : OneReply s pwd toks)
    (hlen : line.length < 127) : Rounds P s line (interpret pwd toks) (s.view.Answer pwd line toks) := by
  obtain ⟨hsafe, hord⟩ := hok
  rcases toks with _ | ⟨t, _ | ⟨a, _ | ⟨b, _ | ⟨c, toks⟩⟩⟩⟩
  · exact rounds_unknown hlen h hpwd id
  · by_cases hexit : t = lit "exit"
    · subst hexit
      refine rounds_status hlen .exit (wp_bind.mpr (sendMsg_oneOf (List.mem_singleton_self _) (by decide) (wp_ret.mpr ?_)))
      exact ⟨⟨rfl, fun _ => rfl, nofun⟩, ⟨g, h⟩, .exit⟩
    by_cases hls : t = lit "ls"
    · subst hls
      exact rounds_here hS hlen h hpwd hord
    have hrest : interpret pwd [t] = (do
        sendMsg (lit "-1")
        .ret (some pwd)) := by
      unfold interpret
      dsimp only
      rw [if_neg hexit, if_neg hls]
    rw [hrest]
    exact rounds_unknown hlen h hpwd (by simp [Files.IsCommand, hexit, hls])
  · have ha : NulFree a := htoks a (by simp)
    by_cases htouch : t = lit "touch"
    · subst htouch
      exact rounds_create (.file []) newInode hP hS hlen h hpwd ha (Or.inl rfl) blank_newInode isState_iOccupied
        fun _ _ => .touch
    by_cases hmkdir : t = lit "mkdir"
    · subst hmkdir
      exact rounds_create (.dir [] []) newDentry hP hS hlen h hpwd ha (Or.inr rfl) blank_newDentry isState_dOccupied
        fun _ _ => .mkdir
    by_cases hrm : t = lit "rm"
    · subst hrm
      exact rounds_remove hlen hpwd (fun _ => rmFile_removes hS h hpwd ha (hsafe.1 rfl)) fun _ _ => .rm
    by_cases hrmdir : t = lit "rmdir"
    · subst hrmdir
      exact rounds_remove hlen hpwd (fun _ => rmDir_removes hS h hpwd ha (hsafe.2 rfl)) fun _ _ => .rmdir
    by_cases hls : t = lit "ls"
    · subst hls
      exact rounds_ls hS hlen h hpwd ha hord
    by_cases hcat : t = lit "cat"
    · subst hcat
      exact rounds_cat hS hlen h hpwd ha hord
    by_cases hcd : t = lit "cd"
    · subst hcd
      exact rounds_cd hS hlen h hpwd ha
    have hrest : interpret pwd [t, a] = (do
        sendMsg (lit "-1")
        .ret (some pwd)) := by
      unfold interpret
      dsimp only
      rw [if_neg htouch, if_neg hmkdir, if_neg hrm, if_neg hrmdir, if_neg hls, if_neg hcat, if_neg hcd]
    rw [hrest]
    exact rounds_unknown hlen h hpwd (by simp [Files.IsCommand, htouch, hmkdir, hrm, hrmdir, hls, hcat, hcd])
  · have ha : NulFree a := htoks a (by simp)
    have hb : NulFree b := htoks b (by simp)
    by_cases hwrite : t = lit "write"
    · subst hwrite
      obtain ⟨ok, hw⟩ := wrt_writes hP hS h hpwd ha hb (hlens b (by simp)) (hsafe rfl)
      refine rounds_does hlen hpwd ⟨ok, wp_mono hw ?_⟩
      rintro r s' ⟨hr, hinv, hwrites⟩
      exact ⟨hr, hinv, .write hwrites⟩
    by_cases happend : t = lit "append"
    · subst happend
      obtain ⟨ok, hok⟩ := exists_success (s.view.IsFile pwd a)
      refine rounds_does hlen hpwd ⟨ok, wp_mono (append_appends hP hS h hpwd ha hb (hlens b (by simp)) hok) ?_⟩
      rintro r s' ⟨hr, hinv, happends⟩
      exact ⟨hr, hinv, .append happends⟩
    have hrest : interpret pwd [t, a, b] = (do
        sendMsg (lit "-1")
        .ret (some pwd)) := by
      unfold interpret
      dsimp only
      rw [if_neg hwrite, if_neg happend]
    rw [hrest]
    exact rounds_unknown hlen h hpwd (by simp [Files.IsCommand, hwrite, happend])
  · exact rounds_unknown hlen h hpwd id

end

/-! ## Three processes -/

/-- The shell and the file server, where a line may be typed that has one reply. -/
def screenLink (P : Policy) : Link clientSig fsSig Unit Store CommandLine (Prompt × Str) PathT :=
  zonesLink P fun pwd s line => OneReply s pwd (toks line.text 6)

/-- What is left after a line of the run. -/
def Displayed (pwd : PathT) (s : Store) (line : CommandLine) (shown : Prompt × Str) (pwd' : Option PathT) (s' : Store) :
    Prop :=
  Files.Typed pwd s.view line shown pwd' s'.view ∧ (pwd' = none → shown.1 = .stop) ∧ (∃ g, Inv s' g) ∧
    ∀ p, pwd' = some p → p.Below

/-- The same through all layers. -/
def terminalLink (P : Policy) : Link clientSig fsSig Unit (Alloc × Disk) CommandLine (Prompt × Str) PathT :=
  wholeLink P fun pwd s line => OneReply s pwd (toks line.text 6)

section
variable {P : Policy}

theorem screenLink_atomic (hP : P.room = true) (hS : P.slots = true) :
    (screenLink P).Atomic (fun pwd s => (∃ g, Inv s g) ∧ pwd.Below) Displayed where
  waits := fun _ => ⟨_, _, rfl⟩
  session := by
    rintro pwd s line ⟨⟨g, h⟩, hpwd⟩ hok
    have hlens : ∀ t ∈ toks line.text 6, t.length < 2 ^ 15 := fun t ht => by
      have := toks_length line.text 6 t ht
      have := line.short
      omega
    obtain ⟨r, A, Out, hone, hclient, hserver⟩ :=
      interpret_rounds hP hS h hpwd (toks_nulFree line.text 6) hlens hok line.short
    refine ⟨_, fun q => q.1 = r ∧ ∃ out, Out out ∧ q.2 = lit "Command > " ++ out,
      fun o s' => Ended r o (s', .done) ∧ (∃ g, Inv s' g) ∧
        ∀ out, Out out → s.view.Answer pwd line.text (toks line.text 6) r out o s'.view,
      hone.closing, fun _ => hclient, wp_bind.mpr (getMsg_talk line.nul line.short (wp_mono hserver ?_)), ?_⟩
    · rintro o ⟨s', A'⟩ ⟨⟨rfl, hend⟩, hinv, hanswer⟩
      exact ⟨rfl, ⟨rfl, hend⟩, hinv, hanswer⟩
    · rintro q o s' ⟨rfl, out, hout, heq⟩ ⟨⟨-, hstop, hsome⟩, hinv, hanswer⟩
      exact ⟨⟨out, heq, hanswer out hout⟩, hstop, hinv, fun p hp => (hsome p hp).2.2⟩
  more := by
    rintro pwd s line shown s' - - ⟨-, hstop, -⟩
    rw [show (screenLink P).more shown = decide (shown.1 = .again) from rfl, hstop rfl]
    rfl
  inv := fun pwd s line shown pwd' s' _ _ hd => ⟨hd.2.2.1, hd.2.2.2 pwd' rfl⟩

theorem terminalLink_atomic (hP : P.room = true) (hS : P.slots = true) :
    (terminalLink P).Atomic
      (fun pwd u => Backs OnDisk (u.1.store u.2.block) u ∧ (∃ g, Inv (u.1.store u.2.block) g) ∧ pwd.Below)
      (fun pwd u line shown pwd' u' => Backs OnDisk (u'.1.store u'.2.block) u' ∧
        Displayed pwd (u.1.store u.2.block) line shown pwd' (u'.1.store u'.2.block)) :=
  (screenLink_atomic hP hS).refine (Y := stackSem P wireSem) (R := fun u => Backs OnDisk (u.1.store u.2.block) u)
    (f := fun u => u.1.store u.2.block) fun _ _ _ _ hB hinv hw => serve_backs hB hinv.2 hw

/-- The files that the file server holds between its cache and the disk. -/
def terminalFiles (u : Alloc × Disk) : Files := (u.1.store u.2.block).view

/-- What is displayed line by line is a run of the abstract file system. -/
theorem calls_typed {k₀ : PathT} {u₀ u : Alloc × Disk} {log : List (CommandLine × Prompt × Str)} {k : Option PathT}
    (h : Calls (fun pwd u line shown pwd' u' => Backs OnDisk (u'.1.store u'.2.block) u' ∧
      Displayed pwd (u.1.store u.2.block) line shown pwd' (u'.1.store u'.2.block)) k₀ u₀ log k u) :
    Calls Files.Typed k₀ (terminalFiles u₀) log k (terminalFiles u) := by
  have hshown : Calls (fun pwd (s : Store) line shown pwd' s' => True ∧ Files.Typed pwd s.view line shown pwd' s'.view)
      k₀ (u₀.1.store u₀.2.block) log k (u.1.store u.2.block) := h.map.mono fun _ _ _ _ _ _ hd => ⟨trivial, hd.1⟩
  exact hshown.map (f := Store.view)

end

end MiniFs
