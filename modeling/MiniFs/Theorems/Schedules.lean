import MiniFs.Lib.Bisim
import MiniFs.Shell
import MiniFs.Theorems.Layers

/-! # The layers in every schedule

The cache and the disk server are not seen from outside: step by step, the shell and the file server on the layers do what
they do on an array of zones, whatever is on the disk and whatever is typed. -/

namespace MiniFs
open Interact Memory

section
variable {ρ : Type} {P : Policy} {L : Link clientSig fsSig Unit Store CommandLine ρ PathT}
variable {g g' : Config clientSig fsSig Unit Store CommandLine ρ PathT}
variable {w w' : Config clientSig fsSig Unit (Alloc × Disk) CommandLine ρ PathT}

/-- The server of the link is the file server on an array of zones. -/
structure OnZones (P : Policy) (L : Link clientSig fsSig Unit Store CommandLine ρ PathT) : Prop where
  sem : L.Y = storeSem P
  serve : L.serve = serve

/-- The same link with the cache and the disk server below the file server. -/
abbrev overLayers (P : Policy) (L : Link clientSig fsSig Unit Store CommandLine ρ PathT) :
    Link clientSig fsSig Unit (Alloc × Disk) CommandLine ρ PathT :=
  L.over (stackSem P wireSem) fun u => u.1.store u.2.block

theorem short_serve {pwd : PathT} (h : pwd.Short) : ShortIds (serve pwd) fun o => ∀ p, o = some p → p.Short :=
  .bind (p := getMsg) (R := fun _ => True) (fun _ => trivial) fun req _ => by
    cases req with
    | none => exact fun p hp => nomatch hp
    | some req => exact short_interpret h _

theorem zones_sim (hL : OnZones P L) : Link.Sim ShortOp ShortAns PathT.Short L (overLayers P L) (Backs OnDisk) where
  client := rfl
  call := rfl
  more := rfl
  serve := rfl
  ops := by
    rw [hL.sem]
    exact stack_sim wire_sim
  within := fun _ h => by
    rw [hL.serve]
    exact short_serve h
  ok := by
    rintro pwd s ⟨a, d⟩ line hB hok
    obtain rfl : s = a.store d.block := hB.eq_store
    exact hok

theorem layers_sim (hL : OnZones P L) :
    Link.Sim ShortOp ShortAns PathT.Short (overLayers P L) L fun u s => Backs OnDisk s u where
  client := rfl
  call := rfl
  more := rfl
  serve := rfl
  ops := by
    rw [hL.sem]
    exact stack_cosim wire_sim wireSem_alone
  within := fun _ h => by
    show ShortIds (L.serve _) _
    rw [hL.serve]
    exact short_serve h
  ok := by
    rintro pwd ⟨a, d⟩ s line hB hok
    obtain rfl : s = a.store d.block := hB.eq_store
    exact hok

/-- A configuration with the zones that the cache and the disk hold in place of the layers. -/
def seen (w : Config clientSig fsSig Unit (Alloc × Disk) CommandLine ρ PathT) :
    Config clientSig fsSig Unit Store CommandLine ρ PathT := w.hold (w.sst.1.store w.sst.2.block)

/-- The cache is coherent and the server's round keeps to the ids of the disk. -/
structure Sound (w : Config clientSig fsSig Unit (Alloc × Disk) CommandLine ρ PathT) : Prop where
  backs : Backs OnDisk (w.sst.1.store w.sst.2.block) w.sst
  within : w.srv.Within ShortOp ShortAns PathT.Short

theorem sound_hold {u : Alloc × Disk} (hB : Backs OnDisk g.sst u) (hw : g.srv.Within ShortOp ShortAns PathT.Short) :
    Sound (g.hold u) ∧ seen (g.hold u) = g := by
  have hstore : g.sst = u.1.store u.2.block := hB.eq_store
  refine ⟨⟨hstore ▸ hB, hw⟩, ?_⟩
  unfold seen Config.hold
  rw [← hstore]

theorem sound_step (hL : OnZones P L) (h : Sound w) (hs : (overLayers P L).Step w w') :
    Sound w' ∧ L.Step (seen w) (seen w') := by
  obtain ⟨g', u', rfl, hs', hB, hw⟩ := Link.Sim.step (g := seen w) (u := w.sst) (zones_sim hL) h.backs h.within hs
  obtain ⟨hsound, hseen⟩ := sound_hold hB hw
  exact ⟨hsound, hseen ▸ hs'⟩

theorem sound_reaches (hL : OnZones P L) (h : Sound w) (hr : (overLayers P L).Reaches w w') :
    Sound w' ∧ L.Reaches (seen w) (seen w') := by
  obtain ⟨g', u', rfl, hr', hB, hw⟩ := Link.Sim.reaches (g := seen w) (u := w.sst) (zones_sim hL) h.backs h.within hr
  obtain ⟨hsound, hseen⟩ := sound_hold hB hw
  exact ⟨hsound, hseen ▸ hr'⟩

theorem sound_of_step (hL : OnZones P L) (h : Sound w) (hs : L.Step (seen w) g') :
    ∃ w', (overLayers P L).Step w w' ∧ seen w' = g' := by
  obtain ⟨w', s', rfl, hs', hB, -⟩ := Link.Sim.step (g := w) (u := (seen w).sst) (layers_sim hL) h.backs h.within hs
  obtain rfl : s' = w'.sst.1.store w'.sst.2.block := hB.eq_store
  exact ⟨w', hs', rfl⟩

theorem sound_of_reaches (hL : OnZones P L) (h : Sound w) (hr : L.Reaches (seen w) g') :
    ∃ w', (overLayers P L).Reaches w w' ∧ seen w' = g' := by
  obtain ⟨w', s', rfl, hr', hB, -⟩ := Link.Sim.reaches (g := w) (u := (seen w).sst) (layers_sim hL) h.backs h.within hr
  obtain rfl : s' = w'.sst.1.store w'.sst.2.block := hB.eq_store
  exact ⟨w', hr', rfl⟩

theorem sound_start {d₀ d : Disk} {a : Alloc} (hinit : Runs wireSem Alloc.start.init d₀ (some (a, d)))
    (lines : List CommandLine) :
    Sound (ρ := ρ) (.initial lines () .root (a, d)) ∧ d₀.block.store = a.store d.block := by
  have hB : Backs OnDisk d₀.block.store (a, d) := start_backs hinit
  have hstore : d₀.block.store = a.store d.block := hB.eq_store
  exact ⟨⟨hstore ▸ hB, PathT.root_below.short⟩, hstore⟩

/-- What the machines play, the three processes do. -/
theorem sound_plays (hL : OnZones P L) (hX : L.X = userSem) {check : PathT → Store → CommandLine → Bool}
    (hok : ∀ pwd s line, check pwd s line = true → L.ok pwd s line) (h : Sound w) (n : Nat) :
    ∃ w', (overLayers P L).Reaches w w' ∧ Sound w' ∧ seen w' = L.plays check userMachine storeMachine n (seen w) := by
  have hr := Link.plays_reaches (L := L) (g := seen w) (hX ▸ userMachine_of) (hL.sem ▸ storeMachine_of P) n hok
  obtain ⟨w', hw, hseen⟩ := sound_of_reaches hL h hr
  exact ⟨w', hw, (sound_reaches hL h hw).1, hseen⟩

/-- The start of a session on a disk that has been formatted. -/
theorem exists_session (ρ : Type) (lines : List CommandLine) :
    ∃ d₀ a₀ d₁ a d, Runs wireSem formatMain (Disk.init d₀) (some (a₀, d₁)) ∧
      Runs wireSem Alloc.start.init d₁.init (some (a, d)) ∧ Sound (ρ := ρ) (.initial lines () .root (a, d)) ∧
      seen (ρ := ρ) (.initial lines () .root (a, d)) = .initial lines () .root formattedBlocks.store := by
  obtain ⟨d₀, a₀, d₁, hformat, hstore⟩ := exists_format
  obtain ⟨a, d, hinit, -⟩ := exists_start d₁.init
  obtain ⟨hstart, heq⟩ := sound_start hinit lines
  refine ⟨d₀, a₀, d₁, a, d, hformat, hinit, hstart, ?_⟩
  rw [← hstore, heq]
  rfl

end

section
variable {P : Policy} {ok : PathT → Store → CommandLine → Prop}

/-- The shell with what it prints, and the file server on an array of zones; a line may be typed in the states that `ok`
    admits. -/
def zonesLink (P : Policy) (ok : PathT → Store → CommandLine → Prop) :
    Link clientSig fsSig Unit Store CommandLine (Prompt × Str) PathT where
  X := userSem
  Y := storeSem P
  call line := Shell.cmdLoop line.text []
  more shown := decide (shown.1 = .again)
  serve := serve
  ok := ok

/-- The shell, the file server behind its cache, and the disk server below it. -/
def wholeLink (P : Policy) (ok : PathT → Store → CommandLine → Prop) :
    Link clientSig fsSig Unit (Alloc × Disk) CommandLine (Prompt × Str) PathT :=
  (zonesLink P ok).over (stackSem P wireSem) fun u => u.1.store u.2.block

theorem zonesLink_onZones : OnZones P (zonesLink P ok) := ⟨rfl, rfl⟩

/-- Step by step the three processes do what the shell and a file server on an array of zones do, from the zones that the
    disk held when the file server started, and the cache and the disk hold these zones. Nothing is asked of the disk or of
    the lines. -/
theorem layers_unseen (P : Policy) (ok : PathT → Store → CommandLine → Prop) (d₀ : Disk) (a : Alloc) (d : Disk)
    (hinit : Runs wireSem Alloc.start.init d₀ (some (a, d))) (lines : List CommandLine) :
    (∀ g, (zonesLink P ok).Reaches (.initial lines () .root d₀.block.store) g ↔
      ∃ w, (wholeLink P ok).Reaches (.initial lines () .root (a, d)) w ∧ seen w = g) ∧
    ∀ w, (wholeLink P ok).Reaches (.initial lines () .root (a, d)) w →
      ∀ g, (zonesLink P ok).Step (seen w) g ↔ ∃ w', (wholeLink P ok).Step w w' ∧ seen w' = g := by
  obtain ⟨hstart, hstore⟩ := sound_start hinit lines
  have hsound : ∀ w, (wholeLink P ok).Reaches (.initial lines () .root (a, d)) w →
      Sound w ∧ (zonesLink P ok).Reaches (.initial lines () .root d₀.block.store) (seen w) := by
    intro w hr
    rw [hstore]
    exact sound_reaches zonesLink_onZones hstart hr
  refine ⟨fun g => ⟨fun hr => ?_, ?_⟩, fun w hr g => ⟨fun hs => ?_, ?_⟩⟩
  · rw [hstore] at hr
    exact sound_of_reaches zonesLink_onZones hstart hr
  · rintro ⟨w, hr, rfl⟩
    exact (hsound w hr).2
  · exact sound_of_step zonesLink_onZones (hsound w hr).1 hs
  · rintro ⟨w', hs, rfl⟩
    exact (sound_step zonesLink_onZones (hsound w hr).1 hs).2

/-- In a removed directory `ls .` is answered twice, through all layers too. -/
theorem layers_unseen_removed_directory : ∃ (u : Alloc × Disk) (lines : List CommandLine)
    (w : Config clientSig fsSig Unit (Alloc × Disk) CommandLine (Prompt × Str) PathT),
    (wholeLink .all fun _ _ _ => True).Reaches (.initial lines () .root u) w ∧ w.log.map (fun x => x.2.2) =
      List.replicate 3 (lit "Command > ") ++ [lit "Command > \n"] ∧ w.down = [packet (lit "4")] := by
  let lines := commandLines [lit "mkdir d", lit "cd d", lit "rmdir /d", lit "ls ."] (by decide)
  let L := zonesLink .all fun _ _ _ => True
  let g := L.plays (fun _ _ _ => true) userMachine storeMachine 100 (.initial lines () .root emptyDisk.toDisk.block.store)
  have hr : L.Reaches (.initial lines () .root emptyDisk.toDisk.block.store) g :=
    Link.plays_reaches userMachine_of (storeMachine_of .all) 100 fun _ _ _ _ => trivial
  have hend : g.log.map (fun x => x.2.2) = List.replicate 3 (lit "Command > ") ++ [lit "Command > \n"] ∧
      g.down = [packet (lit "4")] := by decide +kernel
  obtain ⟨a, d, hinit, -⟩ := exists_start emptyDisk.toDisk
  obtain ⟨w, hw, hseen⟩ := ((layers_unseen .all _ emptyDisk.toDisk a d hinit lines).1 g).mp hr
  rw [← hseen] at hend
  exact ⟨(a, d), lines, w, hw, hend⟩

end

/-! ## A session from a format on -/

/-- Three processes in any order: the shell and the file server exchange whole messages over two queues, and the file
    server exchanges blocks with the disk server. Whatever was on the disk before it was formatted, whenever the shell is back
    at its prompt the file server waits for a request, nothing is in flight, and the disk file holds what the same exchanges
    make of an array of zones. The disk server is started for each of its two clients. -/
theorem layers_in_step (d₀ : Disk) (a₀ : Alloc) (d₁ : Disk) (hformat : Runs wireSem formatMain d₀.init (some (a₀, d₁)))
    (a : Alloc) (d : Disk) (hinit : Runs wireSem Alloc.start.init d₁.init (some (a, d))) (lines : List CommandLine)
    (g : Config clientSig fsSig Unit (Alloc × Disk) CommandLine Prompt PathT)
    (hr : (layersLink .kept).Reaches (.initial lines () .root (a, d)) g) (hcur : g.cur = none)
    (hlast : ∀ x, g.log.getLast? = some x → x.2 = .again) :
    g.up = [] ∧ g.down = [] ∧ g.served = g.log.length ∧ ∃ pwd, g.srv = .idle pwd ∧
      Calls (Exchange .kept) .root d₁.init.block.store g.log (some pwd) (g.sst.1.store g.sst.2.block) ∧
      Shape (g.sst.1.store g.sst.2.block) := by
  obtain ⟨hB, hformatted, heq⟩ := layers_start hformat hinit
  have hgood : (layersLink .kept).Good _ _ .root (a, d) g := (layersLink_atomic rfl rfl).good
    ⟨hB, ⟨.start, hformatted.inv⟩, PathT.root_below⟩ hr
  cases hgood with
  | prompt k? _ hup hdown hsrv hcalls hinv hstop hserved =>
    cases k? with
    | some pwd =>
      obtain ⟨-, ⟨g', hg'⟩, -⟩ := hinv pwd rfl
      refine ⟨hup, hdown, hserved, pwd, hsrv, ?_, hg'.shape⟩
      rw [heq]
      exact hcalls.map.mono fun _ _ _ _ _ _ hk => hk.1
    | none =>
      generalize hlog : g.log = log at hcalls
      cases hcalls with
      | @concat log k t c r k' t' _ hk =>
        have hagain := hlast (c, r) (by rw [hlog, List.getLast?_concat])
        rw [show r = .stop from hk.2.2.1 rfl] at hagain
        cases hagain
  | talk c p k t A U Qc Qs n hc =>
    rw [hcur] at hc
    cases hc

/-- Lines that create, fill, show, list and remove. -/
def sessionLines : List CommandLine :=
  commandLines [lit "mkdir d", lit "cd d", lit "write a hi", lit "append a x", lit "cat a", lit "ls /", lit "touch b",
    lit "rm b"] (by decide)

/-- After these lines the directory is on the disk with its file, and nothing is in flight. -/
theorem layers_in_step_session : ∃ g : Config clientSig fsSig Unit (Alloc × Disk) CommandLine Prompt PathT,
    g.log.map (fun x => x.1.text) = sessionLines.map CommandLine.text ∧
    (g.sst.1.store g.sst.2.block).listing 5 = [(lit "a", 6)] ∧
    g.up = [] ∧ g.down = [] ∧ g.served = 8 ∧ Shape (g.sst.1.store g.sst.2.block) := by
  obtain ⟨d₀, a₀, d₁, a, d, hformat, hinit, hstart, hseen₀⟩ := exists_session Prompt sessionLines
  obtain ⟨w, hr, -, hseen⟩ := sound_plays (P := .kept) (L := shellLink .kept OneReply) ⟨rfl, rfl⟩ rfl
    oneReply_of_checkLine hstart 300
  rw [hseen₀] at hseen
  have hend : (seen w).cur.isNone = true ∧ (seen w).log.map (fun x => x.1.text) = sessionLines.map CommandLine.text ∧
      (seen w).log.map Prod.snd = List.replicate 8 .again ∧ (seen w).sst.listing 5 = [(lit "a", 6)] := by
    rw [hseen]
    decide +kernel
  obtain ⟨hcur, hlines, hagain, hlist⟩ := hend
  have hlog : w.log.map Prod.snd = List.replicate 8 .again := hagain
  have hlast : ∀ x, w.log.getLast? = some x → x.2 = .again := fun x hx => by
    have hin : x.2 ∈ w.log.map Prod.snd := List.mem_map_of_mem (List.mem_of_getLast? hx)
    rw [hlog] at hin
    exact List.eq_of_mem_replicate hin
  obtain ⟨hup, hdown, hserved, -, -, -, hshape⟩ := layers_in_step d₀ a₀ d₁ hformat a d hinit sessionLines w hr
    (Option.isNone_iff_eq_none.mp hcur) hlast
  have hlen : w.log.length = 8 := (List.length_map _).symm.trans (congrArg List.length hlog)
  exact ⟨w, hlines, hlist, hup, hdown, hserved.trans hlen, hshape⟩

end MiniFs
