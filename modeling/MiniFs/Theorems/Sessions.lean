import MiniFs.Theorems.Lifecycle
import MiniFs.Theorems.Terminal

/-! # Sessions

The disk is formatted, and from then on servers are started on it one after the other, each with a shell, until `exit` is
typed. All that is typed and printed in these sessions is one run of the abstract file system, in which each session starts in
the root directory. -/

namespace MiniFs
open Interact Memory

/-- The lines of a session and what is printed of them. -/
abbrev Session.Log := List (CommandLine × Prompt × Str)

/-- Whole sessions one after the other, and the files after them. -/
inductive Files.Sessions : List Session.Log → Files → Prop
  | start : Sessions [] .start
  | session {logs f log f'} (h : Sessions logs f) (calls : Calls Files.Typed .root f log none f') :
      Sessions (logs ++ [log]) f'

abbrev TerminalConfig := Config clientSig fsSig Unit (Alloc × Disk) CommandLine (Prompt × Str) PathT

/-- The disk between two servers: after it has been formatted, or after a server that has been told to end. The disk server
    has been started before each of these. -/
inductive Between : List Session.Log → Disk → Prop
  | format {d₀ d : Disk} {a : Alloc} (run : Runs wireSem formatMain d₀.init (some (a, d))) : Between [] d
  | session {logs : List Session.Log} {d d' : Disk} {a' : Alloc} {u : Alloc × Disk} {lines : List CommandLine}
      {g : TerminalConfig} (h : Between logs d) (start : Runs wireSem Alloc.start.init d.init (some u))
      (run : (terminalLink .kept).Reaches (.initial lines () .root u) g) (back : g.cur = none) (stopped : g.srv = .stopped)
      (final : Runs wireSem g.sst.1.final g.sst.2 (some (a', d'))) : Between (logs ++ [g.log]) d'

/-- The three processes at any point of a session, after some whole sessions. -/
def TerminalRun (logs : List Session.Log) (g : TerminalConfig) : Prop :=
  ∃ (d : Disk) (u : Alloc × Disk) (lines : List CommandLine), Between logs d ∧
    Runs wireSem Alloc.start.init d.init (some u) ∧ (terminalLink .kept).Reaches (.initial lines () .root u) g

section
variable {s s' : Store} {g₀ : Image} {logs : List Session.Log} {d : Disk} {u : Alloc × Disk} {g g' : TerminalConfig}

theorem Inv.view_same (h : Inv s g₀) (hs : s.Same s') : s'.view = s.view := by
  funext id
  rw [(h.same hs).view_eq, h.view_eq]

/-- What holds of the cache, the disk and the working directory while a server runs. -/
def Running (pwd : PathT) (u : Alloc × Disk) : Prop :=
  Backs OnDisk (u.1.store u.2.block) u ∧ (∃ g, Inv (u.1.store u.2.block) g) ∧ pwd.Below

theorem running_start {f : Files} (hinv : ∃ g, Inv d.block.store g) (hf : f = d.block.store.view)
    (hinit : Runs wireSem Alloc.start.init d.init (some u)) : Running .root u ∧ f = terminalFiles u := by
  obtain ⟨g, hinv⟩ := hinv
  have hsame := init_same d
  have hB : Backs OnDisk d.init.block.store u := start_backs hinit
  have hstore : d.init.block.store = u.1.store u.2.block := hB.eq_store
  rw [hstore] at hsame hB
  exact ⟨⟨hB, ⟨g, hinv.same hsame⟩, PathT.root_below⟩, hf.trans (hinv.view_same hsame).symm⟩

/-- A session up to any point of it. -/
theorem running_calls (h : Running .root u) {lines : List CommandLine}
    (hr : (terminalLink .kept).Reaches (.initial lines () .root u) g) :
    ∃ pwd f, Calls Files.Typed .root (terminalFiles u) g.log pwd f ∧ (g.cur = none → f = terminalFiles g.sst) ∧
      (g.cur = none → g.srv = .stopped → pwd = none ∧ Backs OnDisk (g.sst.1.store g.sst.2.block) g.sst ∧
        ∃ g₁, Inv (g.sst.1.store g.sst.2.block) g₁) := by
  cases (terminalLink_atomic rfl rfl).good h hr with
  | prompt pwd _ hup hdown hsrv hcalls hinv hstop hserved =>
    refine ⟨pwd, _, calls_typed hcalls, fun _ => rfl, fun _ hstopped => ?_⟩
    cases pwd with
    | some pwd => cases hsrv.symm.trans hstopped
    | none =>
      generalize g.log = log at hcalls
      cases hcalls with
      | concat _ he => exact ⟨rfl, he.1, he.2.2.2.1⟩
  | talk c p k t A U Qc Qs n hcur hp hcalls =>
    have hbusy : g.cur ≠ none := fun hnone => nomatch hcur.symm.trans hnone
    exact ⟨some k, _, calls_typed hcalls, fun hnone => absurd hnone hbusy, fun hnone => absurd hnone hbusy⟩

theorem Between.holds (h : Between logs d) : Files.Sessions logs d.block.store.view ∧ ∃ g, Inv d.block.store g := by
  induction h with
  | format run =>
    have hformatted := formatMain_formatted run
    exact ⟨hformatted.view ▸ .start, .start, hformatted.inv⟩
  | @session logs d d' a' u lines g h start run back stopped final ih =>
    obtain ⟨hsessions, hinv⟩ := ih
    obtain ⟨hrunning, hfiles⟩ := running_start hinv rfl start
    obtain ⟨pwd, f, hcalls, hf, hend⟩ := running_calls hrunning run
    obtain ⟨rfl, hB, g₁, hinv⟩ := hend back stopped
    have hsame : (g.sst.1.store g.sst.2.block).Same d'.block.store := final_leaves hB final
    obtain rfl := hf back
    refine ⟨?_, g₁, hinv.same hsame⟩
    rw [hinv.view_same hsame]
    exact .session (hfiles ▸ hsessions) hcalls

/-- The lines of a session that writes, appends to and shows a file. -/
def typedLines : List CommandLine :=
  commandLines [lit "mkdir d", lit "cd d", lit "write a hi", lit "cat a", lit "append a x", lit "cat a",
    lit "touch b", lit "touch b", lit "exit"] (by decide)

/-- What is printed of these lines in a new file system. -/
def typedShown : List Str :=
  [lit "Command > ", lit "Command > ", lit "Command > ", lit "Command > hi\n", lit "Command > ", lit "Command > hix\n",
    lit "Command > ", lit "Command > touch b: execution failed.\n", lit "Command > "]

/-- What the machines play of a session in at most `n` steps. -/
def playSession (n : Nat) (g : Config clientSig fsSig Unit Store CommandLine (Prompt × Str) PathT) :
    Config clientSig fsSig Unit Store CommandLine (Prompt × Str) PathT :=
  (screenLink .kept).plays checkLine userMachine storeMachine n g

/-- The prompt after the file has been written. -/
def typedPrompt : Config clientSig fsSig Unit Store CommandLine (Prompt × Str) PathT :=
  playSession 18 (.initial typedLines () .root formattedBlocks.store)

/-- The end of the session. -/
def typedEnd : Config clientSig fsSig Unit Store CommandLine (Prompt × Str) PathT := playSession 100 typedPrompt

theorem typedPrompt_holds : typedPrompt.cur.isNone = true ∧ typedPrompt.log.length = 3 ∧
    typedPrompt.sst.view 6 = some (.file (lit "hi")) := by decide +kernel

theorem typedEnd_holds : typedEnd.cur.isNone = true ∧ typedEnd.srv.isStopped = true ∧ typedEnd.todo.isEmpty = true ∧
    typedEnd.log.map (fun x => x.1.text) = typedLines.map CommandLine.text ∧
    typedEnd.log.map (fun x => x.2.2) = typedShown ∧ typedEnd.sst.view 6 = some (.file (lit "hix")) := by decide +kernel

theorem ended (h : seen g = typedEnd) : g.cur = none ∧ g.srv = .stopped ∧ g.todo = [] := by
  obtain ⟨hcur, hsrv, htodo, -⟩ := typedEnd_holds
  rw [← h] at hcur hsrv htodo
  exact ⟨Option.isNone_iff_eq_none.mp hcur, Serving.eq_stopped hsrv, List.isEmpty_iff.mp htodo⟩

/-- The session in three processes on a disk that has been formatted, at its prompt and at its end, and the disk after it. -/
theorem exists_terminalRun : ∃ d u g₀ g d', Between [] d ∧ Runs wireSem Alloc.start.init d.init (some u) ∧
    (terminalLink .kept).Reaches (.initial typedLines () .root u) g₀ ∧ (terminalLink .kept).Reaches g₀ g ∧
    Between [g.log] d' ∧ seen g₀ = typedPrompt ∧ seen g = typedEnd := by
  obtain ⟨d₀, a₀, d₁, a, d, hformat, hinit, hstart, hseen⟩ := exists_session (Prompt × Str) typedLines
  have hplays := fun {w} h n => sound_plays (w := w) (P := .kept) (L := screenLink .kept) zonesLink_onZones rfl
    oneReply_of_checkLine h n
  obtain ⟨g₀, hr₀, hsound, hseen₀⟩ := hplays hstart 18
  obtain ⟨g, hr, -, hseen₁⟩ := hplays hsound 100
  rw [hseen] at hseen₀
  rw [hseen₀] at hseen₁
  have hbetween : Between [] d₁ := .format hformat
  obtain ⟨hcur, hstopped, -⟩ := ended hseen₁
  obtain ⟨hrunning, -⟩ := running_start hbetween.holds.2 rfl hinit
  obtain ⟨_, _, -, -, hend⟩ := running_calls hrunning (hr₀.trans hr)
  obtain ⟨-, hB, -⟩ := hend hcur hstopped
  obtain ⟨a', d', hfinal⟩ := exists_stop hB
  exact ⟨d₁, (a, d), g₀, g, d', hbetween, hinit, hr₀, hr, .session hbetween hinit (hr₀.trans hr) hcur hstopped hfinal,
    hseen₀, hseen₁⟩

/-! ## What is seen -/

/-- Any number of sessions, in each of which three processes run in any order: all that is typed and printed in them is a run
    of the abstract file system from an empty root, and between two sessions the disk alone holds its files. -/
theorem disk_keeps_files (logs : List Session.Log) (d : Disk) (h : Between logs d) :
    Files.Sessions logs d.block.store.view := h.holds.1

theorem disk_keeps_files_session : ∃ log f, log.map (fun x => x.2.2) = typedShown ∧ Files.Sessions [log] f := by
  obtain ⟨d, u, g₀, g, d', -, -, -, -, hbetween, -, hend⟩ := exists_terminalRun
  refine ⟨g.log, _, ?_, disk_keeps_files _ d' hbetween⟩
  rw [show g.log = (seen g).log from rfl, hend]
  exact typedEnd_holds.2.2.2.2.1

theorem TerminalRun.typed (h : TerminalRun logs g) : ∃ f pwd f', Files.Sessions logs f ∧
    Calls Files.Typed .root f g.log pwd f' ∧ (g.cur = none → f' = terminalFiles g.sst) := by
  obtain ⟨d, u, lines, hbetween, hinit, hr⟩ := h
  obtain ⟨hsessions, hinv⟩ := hbetween.holds
  obtain ⟨hrunning, hfiles⟩ := running_start hinv rfl hinit
  obtain ⟨pwd, f, hcalls, hf, -⟩ := running_calls hrunning hr
  exact ⟨_, pwd, f, hsessions, hfiles ▸ hcalls, hf⟩

/-- Also within a session: the lines that were typed up to now and all that the shell has printed of them go on from the files
    of the sessions before; and while the shell is between two lines, the disk file and the bitmap in memory hold the files of
    its end. -/
theorem terminal_shows_files (logs : List Session.Log) (g : TerminalConfig) (h : TerminalRun logs g) :
    ∃ f pwd f', Files.Sessions logs f ∧ Calls Files.Typed .root f g.log pwd f' ∧
      (g.cur = none → f' = terminalFiles g.sst) := h.typed

theorem terminal_shows_files_session : ∃ log u f pwd f', log.map (fun x => x.2.2) = typedShown ∧ Files.Sessions [] f ∧
    Calls Files.Typed .root f log pwd f' ∧ f' = terminalFiles u ∧ terminalFiles u 6 = some (.file (lit "hix")) := by
  obtain ⟨d, u, g₀, g, d', hbetween, hinit, hr₀, hr, -, -, hend⟩ := exists_terminalRun
  obtain ⟨f, pwd, f', hsessions, hcalls, hf⟩ := terminal_shows_files [] g ⟨d, u, typedLines, hbetween, hinit, hr₀.trans hr⟩
  obtain ⟨-, -, -, -, hshown, hfile⟩ := typedEnd_holds
  rw [← hend] at hshown hfile
  exact ⟨g.log, g.sst, f, pwd, f', hshown, hsessions, hcalls, hf (ended hend).1, hfile⟩

/-! ## Every line is answered -/

/-- What the runs leave out: a zone is asked for and none is free, or the scan for a name in a directory stops past its
    slots, whatever lies above it on the stack. -/
def LeftOut (e : FsOp) (u : Alloc × Disk) : Prop :=
  ((∃ b, e = .getFreeId b) ∧ ∀ id : Int, 4 ≤ id → id < 1024 → getState u.1.map id ≠ some unoccupied) ∨
    ∃ pDir name, e = .stack pDir name ∧ ∀ above, ∃ idx, dentry.subs ≤ idx ∧ scanSubs (frame pDir above) name 10 0 = some idx

theorem kept_total (e : FsOp) (u : Alloc × Disk) : (∃ o, (stackSem .kept wireSem).op e u o) ∨ LeftOut e u := by
  cases e with
  | getState id => exact Or.inl ⟨_, rfl⟩
  | getFreeId b =>
    by_cases hfree : ∃ id : Int, 4 ≤ id ∧ id < 1024 ∧ getState u.1.map id = some unoccupied
    · obtain ⟨id, h4, hlt, hid⟩ := hfree
      obtain ⟨p, hp⟩ := getFreeId_isSome b h4 hlt hid
      refine Or.inl ⟨_, rfl, fun _ => ?_⟩
      rw [hp]
      exact Option.some_ne_none _
    · exact Or.inr (Or.inl ⟨⟨b, rfl⟩, fun id h4 hlt hid => hfree ⟨id, h4, hlt, hid⟩⟩)
  | setFreeId id => exact Or.inl ⟨_, rfl⟩
  | readZone id =>
    obtain ⟨o, ho⟩ := wireSem_alone.exists_runs (u.1.readZone id) u.2
    exact Or.inl ⟨_, o, ho, rfl⟩
  | writeZone id z =>
    obtain ⟨o, ho⟩ := wireSem_alone.exists_runs (u.1.writeZone id z) u.2
    exact Or.inl ⟨_, o, ho, rfl⟩
  | time => exact Or.inl ⟨_, 0, by decide, rfl⟩
  | stack pDir name =>
    by_cases hslots : ∃ above, InSlots pDir name above
    · obtain ⟨above, habove⟩ := hslots
      exact Or.inl ⟨_, above, fun _ => habove, rfl⟩
    · refine Or.inr (Or.inr ⟨pDir, name, rfl, fun above => ?_⟩)
      have hpast : ¬InSlots pDir name above := fun h => hslots ⟨above, h⟩
      unfold InSlots at hpast
      push Not at hpast
      obtain ⟨idx, hscan, hidx⟩ := hpast
      exact ⟨idx, hidx, hscan⟩
  | unset => exact Or.inl ⟨_, 0, rfl⟩

/-- A line after which the server goes on leads to the next prompt. -/
theorem calls_again {k : PathT} {f f' : Files} {log : Session.Log} {k' : Option PathT}
    (h : Calls Files.Typed k f log k' f') (hsome : k' ≠ none) : ∀ x ∈ log, x.2.1 = .again := by
  induction h with
  | nil => exact fun x hx => absurd hx List.not_mem_nil
  | @concat log pwd f line r k' f' _ he ih =>
    intro x hx
    rcases List.mem_append.mp hx with hx | hx
    · exact ih (Option.some_ne_none _) x hx
    · obtain ⟨out, -, hanswer⟩ := he
      rw [List.mem_singleton.mp hx]
      generalize toks line.text 6 = words at hanswer
      obtain ⟨r, shown⟩ := r
      cases hanswer with
      | exit => exact absurd rfl hsome
      | _ => rfl

/-- The server ends after `exit`. -/
theorem calls_exit {k : PathT} {f f' : Files} {log : Session.Log} (h : Calls Files.Typed k f log none f') :
    ∃ before line shown, log = before ++ [(line, shown)] ∧ toks line.text 6 = [lit "exit"] := by
  cases h with
  | @concat before pwd f line shown k' f' _ he =>
    obtain ⟨out, -, hanswer⟩ := he
    refine ⟨before, line, shown, rfl, ?_⟩
    generalize toks line.text 6 = words at hanswer
    obtain ⟨r, shown⟩ := shown
    cases hanswer with
    | exit => rfl

/-- No schedule of a session goes on forever. Where it ends nothing is in flight, and `exit` has been answered, or all lines
    have been answered up to one that is not safe or has no single reply; or the server has come to what the runs leave
    out. -/
theorem every_line_is_answered (logs : List Session.Log) (d : Disk) (u : Alloc × Disk) (h : Between logs d)
    (hinit : Runs wireSem Alloc.start.init d.init (some u)) (lines : List CommandLine) :
    (∀ run : Nat → TerminalConfig, run 0 = .initial lines () .root u →
      ¬∀ n, (terminalLink .kept).Step (run n) (run (n + 1))) ∧
    ∀ g, (terminalLink .kept).Reaches (.initial lines () .root u) g → (∀ g', ¬(terminalLink .kept).Step g g') →
      (terminalLink .kept).Hits LeftOut g ∨ g.cur = none ∧ g.up = [] ∧ g.down = [] ∧
        (g.srv = .stopped ∧ g.log.map Prod.fst <+: lines ∧
            (∃ before line shown, g.log = before ++ [(line, shown)] ∧ toks line.text 6 = [lit "exit"]) ∨
          ∃ pwd, g.srv = .idle pwd ∧ g.log.map Prod.fst ++ g.todo = lines ∧ ∀ line todo, g.todo = line :: todo →
            ¬OneReply (g.sst.1.store g.sst.2.block) pwd (toks line.text 6)) := by
  obtain ⟨hrunning, -⟩ := running_start h.holds.2 rfl hinit
  have hatomic := terminalLink_atomic (P := .kept) rfl rfl
  refine ⟨hatomic.terminates hrunning lines (), fun g hr hend => ?_⟩
  rcases (hatomic.good hrunning hr).end_or_hits hatomic.waits (fun _ _ => ⟨_, [], .nil, rfl⟩) kept_total hend with
    hhits | ⟨pwd, hcur, hup, hdown, hsrv, hcalls, hstop, hnext⟩
  · exact Or.inl hhits
  refine Or.inr ⟨hcur, hup, hdown, ?_⟩
  cases pwd with
  | none =>
    refine Or.inl ⟨hsrv, List.IsPrefix.trans (List.prefix_append _ _) (Link.reaches_prefix hr), ?_⟩
    exact calls_exit (calls_typed hcalls)
  | some pwd =>
    refine Or.inr ⟨pwd, hsrv, ?_, fun line todo htodo hok => ?_⟩
    · have hagain := calls_again (calls_typed hcalls) (Option.some_ne_none _)
      have hall := Link.reaches_all hr fun x hx => decide_eq_true (hagain x hx)
      rwa [hcur] at hall
    · obtain ⟨k, hk, hno⟩ := hnext line todo htodo
      cases hk
      exact hno hok

/-- The session of above ends, and only with the answer to `exit`. -/
theorem every_line_is_answered_session : ∃ u g, (∀ run : Nat → TerminalConfig, run 0 = .initial typedLines () .root u →
      ¬∀ n, (terminalLink .kept).Step (run n) (run (n + 1))) ∧
    (terminalLink .kept).Reaches (.initial typedLines () .root u) g ∧ (∀ g', ¬(terminalLink .kept).Step g g') ∧
    g.up = [] ∧ g.down = [] ∧ g.log.map Prod.fst <+: typedLines ∧
    ∃ before line shown, g.log = before ++ [(line, shown)] ∧ toks line.text 6 = [lit "exit"] := by
  obtain ⟨d, u, g₀, g, d', hbetween, hinit, hr₀, hr, -, -, hend⟩ := exists_terminalRun
  obtain ⟨hcur, hstopped, htodo⟩ := ended hend
  have hstuck : ∀ g', ¬(terminalLink .kept).Step g g' := fun g' => Link.no_step hcur htodo hstopped
  obtain ⟨hfinite, hends⟩ := every_line_is_answered [] d u hbetween hinit typedLines
  refine ⟨u, g, hfinite, hr₀.trans hr, hstuck, ?_⟩
  rcases hends g (hr₀.trans hr) hstuck with hhits | ⟨-, hup, hdown, ⟨-, hprefix, hexit⟩ | ⟨pwd, hidle, -⟩⟩
  · cases hhits with
    | accept hidle => cases hstopped.symm.trans hidle
    | server hbusy => cases hstopped.symm.trans hbusy
  · exact ⟨hup, hdown, hprefix, hexit⟩
  · cases hstopped.symm.trans hidle

end

end MiniFs
