import MiniFs.Lib.Logs
import MiniFs.Theorems.Sessions

/-! # What the user can rely on

Laws of the abstract file system, which hold of what is seen at the terminal: what has been written or appended is shown,
and nothing is lost without a command that removes. -/

namespace MiniFs
open Interact Memory

/-- Entries and text are added at the ends only. -/
inductive Obj.Grows : Obj → Obj → Prop
  | dir (es more : List Entry) : Obj.Grows (.dir es) (.dir (es ++ more))
  | file (text more : Str) : Obj.Grows (.file text) (.file (text ++ more))

theorem Obj.Grows.refl (o : Obj) : o.Grows o := by
  cases o with
  | dir es => simpa using Obj.Grows.dir es []
  | file text => simpa using Obj.Grows.file text []

theorem Obj.Grows.trans {o₁ o₂ o₃ : Obj} (h : o₁.Grows o₂) (h' : o₂.Grows o₃) : o₁.Grows o₃ := by
  cases h with
  | dir es more =>
    cases h' with
    | dir _ more' => simpa using Obj.Grows.dir es (more ++ more')
  | file text more =>
    cases h' with
    | file _ more' => simpa using Obj.Grows.file text (more ++ more')

namespace Files

/-- Each object is still there, and has lost nothing. -/
def Grows (f f' : Files) : Prop := ∀ id o, f id = some o → ∃ o', f' id = some o' ∧ o.Grows o'

section
variable {f f' f₁ : Files} {pwd curr p : PathT} {pwd' : Option PathT} {path cut line out a b text text' : Str} {id d : Int}
variable {words : List Str} {r : Prompt} {ok : Bool} {es : List Entry} {name : Str} {o : Obj} {fuel : Nat}

theorem Grows.refl (f : Files) : f.Grows f := fun _ o ho => ⟨o, ho, .refl o⟩

theorem Grows.trans (h : f.Grows f₁) (h' : f₁.Grows f') : f.Grows f' := fun id o ho => by
  obtain ⟨o₁, ho₁, hg⟩ := h id o ho
  obtain ⟨o', ho', hg'⟩ := h' id o₁ ho₁
  exact ⟨o', ho', hg.trans hg'⟩

theorem Grows.set {o' : Obj} (ho : f id = some o) (h : o.Grows o') : f.Grows (f.set id o') := fun i oi hoi => by
  unfold Files.set
  by_cases hi : i = id
  · subst hi
    cases ho.symm.trans hoi
    exact ⟨o', if_pos rfl, h⟩
  · exact ⟨oi, (if_neg hi).trans hoi, .refl oi⟩

/-! ## Paths -/

/-- The text of a file is of no account to a path. -/
theorem walk_set_file (h : f id = some (.file text)) :
    (f.set id (.file text')).walk fuel curr path = f.walk fuel curr path := by
  induction fuel generalizing curr path with
  | zero => rfl
  | succ fuel ih =>
    rw [walk, walk]
    simp only [ih]
    by_cases hid : curr.id = id
    · rw [show (f.set id (.file text')) curr.id = some (.file text') from if_pos hid, hid, h]
    · rw [show (f.set id (.file text')) curr.id = f curr.id from if_neg hid]

theorem lookup_set_file (h : f id = some (.file text)) : (f.set id (.file text')).lookup pwd path = f.lookup pwd path := by
  cases path with
  | nil => rfl
  | cons c rest =>
    unfold lookup
    dsimp only
    rw [walk_set_file h, walk_set_file h]

/-- A path of one component. -/
theorem lookup_single (h : slash ∉ a) : f.lookup pwd a = (if a = [] ∨ a = lit "." then some pwd
    else if a = lit ".." then pwd.prev
    else match f pwd.id with
      | some (.dir es) => (lookupEntries (es.take 4) a).map (PathT.node · pwd)
      | _ => none, a) := by
  have hcut : ∀ n m, a.take n ≠ m ++ [slash] := fun n m heq =>
    h (List.mem_of_mem_take (heq ▸ List.mem_append_right _ (List.mem_singleton_self _)))
  cases a with
  | nil => rfl
  | cons c rest =>
    have hc : c ≠ slash := fun heq => h (heq ▸ List.mem_cons_self)
    unfold lookup
    dsimp only
    rw [if_neg hc, walk]
    by_cases hdot : c :: rest = [] ∨ c :: rest = lit "."
    · rw [if_pos hdot, if_pos hdot]
    rw [if_neg hdot, if_neg hdot]
    by_cases hdots : c :: rest = lit ".."
    · rw [if_pos hdots, if_pos hdots]
    have htwo : ¬(c :: rest).take 2 = lit "./" := hcut 2 (lit ".")
    have hthree : ¬(c :: rest).take 3 = lit "../" := hcut 3 (lit "..")
    rw [if_neg hdots, if_neg hdots, if_neg htwo, if_neg hthree, takeWhile_of_not_mem h]
    cases f pwd.id with
    | none => rfl
    | some o =>
      cases o with
      | file text => rfl
      | dir es =>
        dsimp only
        cases lookupEntries (es.take 4) (c :: rest) with
        | none => rfl
        | some id => exact if_neg (Nat.lt_irrefl _)

theorem insertion_dir (h : f.insertion pwd path = some (d, es, name)) : f d = some (.dir es) := by
  unfold insertion at h
  split at h
  · cases h
  split at h
  · cases h
  split at h
  · cases h
  split at h
  · rename_i hdir
    cases h
    exact hdir
  · cases h

/-- A name alone goes into the working directory, where it did not lead to anything. -/
theorem insertion_single (h : slash ∉ a) (hi : f.insertion pwd a = some (d, es, name)) :
    (f.lookup pwd a).1 = none ∧ d = pwd.id ∧ name = a := by
  unfold insertion at hi
  rw [lookup_single h] at hi
  rw [lookup_single h]
  generalize (if a = [] ∨ a = lit "." then some pwd else if a = lit ".." then pwd.prev else _) = r at hi
  cases r with
  | some p => cases hi
  | none =>
    dsimp only at hi
    cases a with
    | nil => cases hi
    | cons c rest =>
      rw [rmName_of_not_mem fun hin => h (List.mem_cons_of_mem _ hin)] at hi
      dsimp only [lookup] at hi
      split at hi
      · cases hi
        exact ⟨rfl, rfl, rfl⟩
      · cases hi

/-! ## Changes -/

/-- A new entry is found under its name when there was none before. -/
theorem lookupEntries_new {i : Int} (h : lookupEntries (es.take 4) name = none)
    (hi : lookupEntries ((es ++ [(name, id)]).take 4) name = some i) : i = id := by
  by_cases hlen : es.length < 4
  · rw [List.take_of_length_le (by omega)] at h
    rw [List.take_of_length_le (by simp; omega), lookupEntries_concat h] at hi
    exact (Option.some.inj hi).symm
  · rw [List.take_append_of_le_length (by omega), h] at hi
    cases hi

theorem Makes.grows (h : f.Makes pwd path o ok f') : f.Grows f' := by
  cases h with
  | fails _ => exact .refl f
  | @makes d es name id hi free _ _ =>
    have hdir := insertion_dir hi
    have hne : d ≠ id := fun heq => nomatch (heq ▸ hdir).symm.trans free
    intro i oi hoi
    unfold link set
    by_cases hd : i = d
    · subst hd
      cases hdir.symm.trans hoi
      exact ⟨_, if_pos rfl, .dir es _⟩
    · have hid : i ≠ id := fun heq => nomatch (heq ▸ hoi).symm.trans free
      exact ⟨oi, by rw [if_neg hd, if_neg hid, hoi], .refl oi⟩

theorem Appends.grows (h : f.Appends pwd path text' ok f') : f.Grows f' := by
  cases h with
  | fails _ => exact .refl f
  | appends _ file => exact .set file (.file _ _)

/-- After a `write` of a name that succeeds the name leads to a file with the text. -/
theorem Writes.single (ha : slash ∉ a) (h : f.Writes pwd a b true f') :
    ∃ p, (f'.lookup pwd a).1 = some p ∧ f' p.id = some (.file b) := by
  have hcut : ∀ {f₁ : Files}, (f₁.lookup pwd a).2 = a := fun {f₁} => by rw [lookup_single ha]
  obtain ⟨f₁, h⟩ : ∃ f₁ : Files, f₁.Renews pwd a a b true f' := by
    cases h with
    | new _ h' => exact ⟨_, hcut ▸ h'⟩
    | old _ _ _ h' =>
      rw [hcut, hcut] at h'
      exact ⟨_, h'⟩
  obtain ⟨h, h'⟩ : ∃ f₂, f₁.Makes pwd a (.file []) true f₂ ∧ f₂.Appends pwd a b true f' := by
    cases h with
    | makes h h' => exact ⟨_, h, h'⟩
  obtain ⟨h, h'⟩ := h'
  cases h with
  | @makes d es name id hi free le lt =>
    obtain ⟨hnone, rfl, rfl⟩ := insertion_single ha hi
    have hdir := insertion_dir hi
    have hne : id ≠ pwd.id := fun heq => nomatch (heq ▸ hdir).symm.trans free
    cases h' with
    | @appends p text hp file =>
      -- The name is that of the new entry, and of no entry before.
      have hid : p.id = id := by
        rw [lookup_single ha] at hp hnone
        dsimp only at hp hnone
        by_cases hdot : name = [] ∨ name = lit "."
        · rw [if_pos hdot] at hnone
          cases hnone
        rw [if_neg hdot] at hp hnone
        by_cases hdots : name = lit ".."
        · rw [if_pos hdots] at hp hnone
          cases hnone.symm.trans hp
        rw [if_neg hdots, hdir] at hnone
        rw [if_neg hdots, show f₁.link pwd.id es (name, id) (.file []) pwd.id = some (.dir (es ++ [(name, id)])) from
          if_pos rfl] at hp
        dsimp only at hp hnone
        obtain ⟨i, hfound, rfl⟩ := Option.map_eq_some_iff.mp hp
        exact lookupEntries_new (Option.map_eq_none_iff.mp hnone) hfound
      have hempty : f₁.link pwd.id es (name, id) (.file []) p.id = some (.file []) := by
        unfold link set
        rw [hid, if_neg hne, if_pos rfl]
      obtain rfl : text = [] := by
        cases file.symm.trans hempty
        rfl
      exact ⟨p, by rw [lookup_set_file file, hp], if_pos rfl⟩

/-! ## Lines -/

/-- The commands that answer with their success. -/
theorem Does.mem (h : f.Does pwd words ok f') :
    ∃ w ∈ [lit "touch", lit "mkdir", lit "rm", lit "rmdir", lit "write", lit "append"], words.head? = some w := by
  cases h with
  | touch => exact ⟨lit "touch", by simp, rfl⟩
  | mkdir => exact ⟨lit "mkdir", by simp, rfl⟩
  | long ht => exact ⟨_, by rcases ht with rfl | rfl <;> simp, rfl⟩
  | rm => exact ⟨lit "rm", by simp, rfl⟩
  | rmdir => exact ⟨lit "rmdir", by simp, rfl⟩
  | write => exact ⟨lit "write", by simp, rfl⟩
  | append => exact ⟨lit "append", by simp, rfl⟩

/-- No two commands have one name. -/
theorem ne_of_words {t u : Str} {ts us : List Str} (h : t :: ts = u :: us) (hne : t ≠ u) : False := hne (List.cons.inj h).1

theorem Answer.of_cat (h : f.Answer pwd line words r out pwd' f') (hw : words = [lit "cat", a]) :
    pwd' = some pwd ∧ f' = f ∧
      ((∃ p text, (f.lookup pwd a).1 = some p ∧ f p.id = some (.file text) ∧ out = text ++ lit "\n") ∨
        ¬f.IsFile pwd a ∧ out = report line false) := by
  cases h with
  | exit => cases hw
  | unknown hno => exact absurd (by simp [hw, IsCommand]) hno
  | does hdoes =>
    obtain ⟨w, hin, heq⟩ := hdoes.mem
    rw [hw] at heq
    cases heq
    exact absurd hin (by decide)
  | cd _ _ => exact (ne_of_words hw (by decide)).elim
  | cdFails _ => exact (ne_of_words hw (by decide)).elim
  | here _ => cases hw
  | ls _ _ => exact (ne_of_words hw (by decide)).elim
  | lsFails _ => exact (ne_of_words hw (by decide)).elim
  | cat hp file =>
    cases hw
    exact ⟨rfl, rfl, Or.inl ⟨_, _, hp, file, rfl⟩⟩
  | catFails hno =>
    cases hw
    refine ⟨rfl, rfl, Or.inr ⟨?_, rfl⟩⟩
    rintro ⟨p, text, hp, ht⟩
    exact hno p text hp ht

/-- A command of three words. -/
theorem Answer.of_three {t : Str} (h : f.Answer pwd line words r out pwd' f') (hw : words = [t, a, b])
    (ht : t = lit "write" ∨ t = lit "append") : ∃ ok, pwd' = some pwd ∧ out = report line ok ∧
      (t = lit "write" ∧ f.Writes pwd a b ok f' ∨ t = lit "append" ∧ f.Appends pwd a b ok f') := by
  cases h with
  | exit => cases hw
  | unknown hno => exact absurd (by rcases ht with rfl | rfl <;> simp [hw, IsCommand]) hno
  | @does words ok f' hdoes =>
    refine ⟨ok, rfl, rfl, ?_⟩
    cases hdoes with
    | touch _ _ => cases hw
    | mkdir _ _ => cases hw
    | long _ _ => cases hw
    | rm _ => cases hw
    | rmdir _ => cases hw
    | write h =>
      cases hw
      exact Or.inl ⟨rfl, h⟩
    | append h =>
      cases hw
      exact Or.inr ⟨rfl, h⟩
  | cd _ _ => cases hw
  | cdFails _ => cases hw
  | here _ => cases hw
  | ls _ _ => cases hw
  | lsFails _ => cases hw
  | cat _ _ => cases hw
  | catFails _ => cases hw

theorem Answer.grows (h : f.Answer pwd line words r out pwd' f')
    (hno : ∀ w ∈ [lit "rm", lit "rmdir", lit "write"], words.head? ≠ some w) : f.Grows f' := by
  cases h with
  | does hdoes =>
    cases hdoes with
    | touch _ h => exact h.grows
    | mkdir _ h => exact h.grows
    | long _ _ => exact .refl f
    | rm _ => exact absurd rfl (hno (lit "rm") (by simp))
    | rmdir _ => exact absurd rfl (hno (lit "rmdir") (by simp))
    | write _ => exact absurd rfl (hno (lit "write") (by simp))
    | append h => exact h.grows
  | exit => exact .refl f
  | unknown _ => exact .refl f
  | cd _ _ => exact .refl f
  | cdFails _ => exact .refl f
  | here _ => exact .refl f
  | ls _ _ => exact .refl f
  | lsFails _ => exact .refl f
  | cat _ _ => exact .refl f
  | catFails _ => exact .refl f

theorem report_eq_nil (h : report line ok = []) : ok = true := by
  cases ok with
  | true => rfl
  | false =>
    have h : line ++ lit ": execution failed.\n" = [] := h
    exact absurd (List.append_eq_nil_iff.mp h).2 (by decide)

end

end Files

/-! ## At the terminal -/

/-- What the shell has printed of the lines that show what has been written. -/
structure Readable (log : Session.Log) : Prop where
  /-- After a `write` of a name that succeeds, `cat` prints the text. -/
  written : ∀ before after l₁ l₂ r₁ r₂ a b, log = before ++ (l₁, r₁) :: (l₂, r₂) :: after →
    toks l₁.text 6 = [lit "write", a, b] → slash ∉ a → r₁.2 = lit "Command > " → toks l₂.text 6 = [lit "cat", a] →
    r₂.2 = lit "Command > " ++ (b ++ lit "\n")
  /-- `append` adds its text to what `cat` prints, or all three lines fail. -/
  appended : ∀ before after l₁ l₂ l₃ r₁ r₂ r₃ a b, log = before ++ (l₁, r₁) :: (l₂, r₂) :: (l₃, r₃) :: after →
    toks l₁.text 6 = [lit "cat", a] → toks l₂.text 6 = [lit "append", a, b] → toks l₃.text 6 = [lit "cat", a] →
    (∃ text, r₁.2 = lit "Command > " ++ (text ++ lit "\n") ∧ r₂.2 = lit "Command > " ∧
      r₃.2 = lit "Command > " ++ (text ++ b ++ lit "\n")) ∨
    (r₁.2 = lit "Command > " ++ Files.report l₁.text false ∧ r₂.2 = lit "Command > " ++ Files.report l₂.text false ∧
      r₃.2 = lit "Command > " ++ Files.report l₃.text false)

section
variable {f f₁ f₂ f₃ : Files} {pwd : PathT} {o₁ o₂ o₃ : Option PathT} {l₁ l₂ l₃ : CommandLine} {r₁ r₂ r₃ : Prompt × Str}
variable {log : Session.Log} {a b : Str} {k : Option PathT}

theorem write_cat {p₁ : PathT} (h₁ : Files.Typed pwd f l₁ r₁ (some p₁) f₁) (h₂ : Files.Typed p₁ f₁ l₂ r₂ o₂ f₂)
    (hw₁ : toks l₁.text 6 = [lit "write", a, b]) (ha : slash ∉ a) (hr₁ : r₁.2 = lit "Command > ")
    (hw₂ : toks l₂.text 6 = [lit "cat", a]) : r₂.2 = lit "Command > " ++ (b ++ lit "\n") := by
  obtain ⟨out₁, hout₁, h₁⟩ := h₁
  obtain ⟨out₂, hout₂, h₂⟩ := h₂
  obtain ⟨ok, hpwd, hreport, ⟨-, hwrites⟩ | ⟨hno, -⟩⟩ := h₁.of_three hw₁ (Or.inl rfl)
  · have hnil : out₁ = [] := List.append_cancel_left ((hout₁.symm.trans hr₁).trans (List.append_nil _).symm)
    obtain rfl : ok = true := Files.report_eq_nil (hreport.symm.trans hnil)
    cases hpwd
    obtain ⟨p, hp, hfile⟩ := hwrites.single ha
    obtain ⟨-, -, ⟨q, text, hq, htext, hout⟩ | ⟨hno, -⟩⟩ := h₂.of_cat hw₂
    · cases hp.symm.trans hq
      cases hfile.symm.trans htext
      rw [hout₂, hout]
    · exact absurd ⟨p, b, hp, hfile⟩ hno
  · exact absurd hno (by decide)

theorem cat_append_cat {p₁ p₂ : PathT} (h₁ : Files.Typed pwd f l₁ r₁ (some p₁) f₁) (h₂ : Files.Typed p₁ f₁ l₂ r₂ (some p₂) f₂)
    (h₃ : Files.Typed p₂ f₂ l₃ r₃ o₃ f₃) (hw₁ : toks l₁.text 6 = [lit "cat", a]) (hw₂ : toks l₂.text 6 = [lit "append", a, b])
    (hw₃ : toks l₃.text 6 = [lit "cat", a]) :
    (∃ text, r₁.2 = lit "Command > " ++ (text ++ lit "\n") ∧ r₂.2 = lit "Command > " ∧
      r₃.2 = lit "Command > " ++ (text ++ b ++ lit "\n")) ∨
    (r₁.2 = lit "Command > " ++ Files.report l₁.text false ∧ r₂.2 = lit "Command > " ++ Files.report l₂.text false ∧
      r₃.2 = lit "Command > " ++ Files.report l₃.text false) := by
  obtain ⟨out₁, hout₁, h₁⟩ := h₁
  obtain ⟨out₂, hout₂, h₂⟩ := h₂
  obtain ⟨out₃, hout₃, h₃⟩ := h₃
  obtain ⟨hpwd, rfl, hcat₁⟩ := h₁.of_cat hw₁
  cases hpwd
  obtain ⟨ok, hpwd, rfl, ⟨hno, -⟩ | ⟨-, happends⟩⟩ := h₂.of_three hw₂ (Or.inr rfl)
  · exact absurd hno (by decide)
  cases hpwd
  obtain ⟨-, -, hcat₃⟩ := h₃.of_cat hw₃
  rcases hcat₁ with ⟨p, text, hp, htext, rfl⟩ | ⟨hno, rfl⟩
  · cases happends with
    | fails hfails => exact absurd htext (hfails p text hp)
    | appends hq hfile =>
      cases hp.symm.trans hq
      cases htext.symm.trans hfile
      refine Or.inl ⟨text, hout₁, hout₂, ?_⟩
      rw [Files.IsFile, Files.lookup_set_file hfile] at hcat₃
      have hnew : f₁.set p.id (.file (text ++ b)) p.id = some (.file (text ++ b)) := if_pos rfl
      rcases hcat₃ with ⟨q, text', hq, htext', rfl⟩ | ⟨hno, -⟩
      · cases hp.symm.trans hq
        cases hnew.symm.trans htext'
        exact hout₃
      · exact absurd ⟨p, _, hp, hnew⟩ hno
  · cases happends with
    | appends hq hfile => exact absurd ⟨_, _, hq, hfile⟩ hno
    | fails _ =>
      rcases hcat₃ with ⟨q, text', hq, htext', -⟩ | ⟨-, rfl⟩
      · exact absurd ⟨q, text', hq, htext'⟩ hno
      · exact Or.inr ⟨hout₁, hout₂, hout₃⟩

theorem calls_readable {k₀ : PathT} (h : Calls Files.Typed k₀ f₁ log k f) : Readable log where
  written := by
    intro before after l₁ l₂ r₁ r₂ a b hlog hw₁ ha hr₁ hw₂
    have hsplit : log = before ++ [(l₁, r₁)] ++ [(l₂, r₂)] ++ after := by simpa using hlog
    obtain ⟨k₂, f₂, h⟩ := (hsplit ▸ h).first
    obtain ⟨k₁, f₁, h, h₂⟩ := h.last
    obtain ⟨k₀, f₀, -, h₁⟩ := h.last
    exact write_cat h₁ h₂ hw₁ ha hr₁ hw₂
  appended := by
    intro before after l₁ l₂ l₃ r₁ r₂ r₃ a b hlog hw₁ hw₂ hw₃
    have hsplit : log = before ++ [(l₁, r₁)] ++ [(l₂, r₂)] ++ [(l₃, r₃)] ++ after := by simpa using hlog
    obtain ⟨k₃, f₃, h⟩ := (hsplit ▸ h).first
    obtain ⟨k₂, f₂, h, h₃⟩ := h.last
    obtain ⟨k₁, f₁, h, h₂⟩ := h.last
    obtain ⟨k₀, f₀, -, h₁⟩ := h.last
    exact cat_append_cat h₁ h₂ h₃ hw₁ hw₂ hw₃

theorem calls_grow {k₀ : PathT} (h : Calls Files.Typed k₀ f log k f₁)
    (hno : ∀ x ∈ log, ∀ w ∈ [lit "rm", lit "rmdir", lit "write"], (toks x.1.text 6).head? ≠ some w) : f.Grows f₁ := by
  induction h with
  | nil => exact .refl f
  | concat _ he ih =>
    obtain ⟨out, -, hanswer⟩ := he
    exact (ih fun x hx => hno x (List.mem_append_left _ hx)).trans
      (hanswer.grows (hno _ (List.mem_append_right _ (List.mem_singleton_self _))))

/-- In every schedule of the three processes, what has been written or appended is what `cat` shows. -/
theorem written_is_shown (logs : List Session.Log) (g : TerminalConfig) (h : TerminalRun logs g) : Readable g.log := by
  obtain ⟨f, pwd, f', -, hcalls, -⟩ := h.typed
  exact calls_readable hcalls

/-- In the session of above `write a hi` and `cat a` are typed, then `append a x` and `cat a`. -/
theorem written_is_shown_session : ∃ log, log.map (fun x => x.1.text) = typedLines.map CommandLine.text ∧
    log.map (fun x => x.2.2) = typedShown ∧ Readable log := by
  obtain ⟨d, u, g₀, g, d', hbetween, hinit, hr₀, hr, -, -, hend⟩ := exists_terminalRun
  obtain ⟨-, -, -, hlines, hshown, -⟩ := typedEnd_holds
  rw [← hend] at hlines hshown
  exact ⟨g.log, hlines, hshown, written_is_shown [] g ⟨d, u, typedLines, hbetween, hinit, hr₀.trans hr⟩⟩

/-- In every schedule of the three processes, from one prompt to a later one with no `rm`, `rmdir` or `write` between them
    each directory keeps its entries and each file its text, and both grow at their ends only. -/
theorem nothing_lost (logs : List Session.Log) (g g' : TerminalConfig) (h : TerminalRun logs g)
    (hr : (terminalLink .kept).Reaches g g') (hcur : g.cur = none) (hcur' : g'.cur = none)
    (hno : ∀ x ∈ g'.log.drop g.log.length, ∀ w ∈ [lit "rm", lit "rmdir", lit "write"], (toks x.1.text 6).head? ≠ some w) :
    (terminalFiles g.sst).Grows (terminalFiles g'.sst) := by
  obtain ⟨d, u, lines, hbetween, hinit, hr₀⟩ := h
  obtain ⟨hrunning, -⟩ := running_start hbetween.holds.2 rfl hinit
  obtain ⟨more, k, k', hlog, hcalls⟩ := (terminalLink_atomic rfl rfl).calls_between hrunning hr₀ hr hcur hcur'
  rw [hlog, List.drop_left] at hno
  exact calls_grow (calls_typed hcalls) hno

/-- From the prompt after `write a hi` to the end of the session. -/
theorem nothing_lost_session : ∃ u u', terminalFiles u 6 = some (.file (lit "hi")) ∧
    terminalFiles u' 6 = some (.file (lit "hix")) ∧ (terminalFiles u).Grows (terminalFiles u') := by
  obtain ⟨d, u, g₀, g, d', hbetween, hinit, hr₀, hr, -, hprompt, hend⟩ := exists_terminalRun
  obtain ⟨hcur₀, hlen, hfile₀⟩ := typedPrompt_holds
  obtain ⟨-, -, -, hlines, -, hfile⟩ := typedEnd_holds
  rw [← hprompt] at hcur₀ hlen hfile₀
  rw [← hend] at hlines hfile
  refine ⟨g₀.sst, g.sst, hfile₀, hfile, nothing_lost [] g₀ g ⟨d, u, typedLines, hbetween, hinit, hr₀⟩ hr
    (Option.isNone_iff_eq_none.mp hcur₀) (ended hend).1 fun x hx => ?_⟩
  have hcalm : ∀ text ∈ (typedLines.map CommandLine.text).drop 3, ∀ w ∈ [lit "rm", lit "rmdir", lit "write"],
      (toks text 6).head? ≠ some w := by decide
  have hlen : g₀.log.length = 3 := hlen
  have hlines : g.log.map (fun x => x.1.text) = typedLines.map CommandLine.text := hlines
  rw [hlen] at hx
  refine hcalm x.1.text ?_
  rw [← hlines, ← List.map_drop]
  exact List.mem_map_of_mem (f := fun x => x.1.text) hx

end

end MiniFs
