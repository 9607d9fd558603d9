import MiniFs.Theorems.Layers

/-! # From one process to the next

Between two processes only the disk file is left. What a server leaves there when it ends is what the next one starts
with: the directory tree keeps its shape through any number of servers, a server that only looks leaves every byte as it
was, and one that is killed leaves the zones that it has written but not the states that it has set. -/

namespace MiniFs
open Interact Memory

section
variable {P : Policy} {s s' : Store} {g : Image} {disk disk' : BlockArray} {a a' : Alloc} {d d' : Disk} {pwd : PathT}

/-! ## What the next process finds -/

theorem DirTree.same_zones (h : DirTree s g) (hs : s.Same s') {id : Int} {n : Node} (hn : g.node id = some n) :
    ∀ z ∈ id :: n.own, s'.zones z = s.zones z := by
  intro z hz
  rcases List.mem_cons.mp hz with rfl | hz
  · exact hs.zones z (h.le hn) (h.lt hn)
  · obtain ⟨b, hb, -⟩ := h.used_own hn z hz
    exact hs.zones z ((h.placed id n hn).le_own z hz) (Store.lt_of_state hb)

/-- The invariant looks at zones that have a state, and not at the reserved ones. -/
theorem Inv.same (h : Inv s g) (hs : s.Same s') : Inv s' g where
  root := h.root
  state id n hn := (hs.state id).trans (h.state id n hn)
  node id b hb := h.node id b ((hs.state id).symm.trans hb)
  placed id n hn := (h.placed id n hn).congr (h.same_zones hs hn)
  own id n hn z hz := (hs.state z).trans (h.own id n hn z hz)
  nodup := h.nodup
  apart := h.apart
  entry d n e hn he := by
    obtain ⟨⟨c, hc⟩, hp, hrank, hne⟩ := h.entry d n e hn he
    exact ⟨⟨c, hc⟩, by rw [hs.zones _ (h.le hc) (h.lt hc)]; exact hp, hrank, hne⟩
  ids := h.ids
  rep id n hn := by
    refine (h.rep id n hn).congr (h.same_zones hs hn) fun z hz => ?_
    obtain ⟨b, hb, hne⟩ := h.used_own hn z hz
    exact ⟨b, (hs.state z).trans hb, hne⟩
  time id n hn := by
    rw [hs.zones id (h.le hn) (h.lt hn)]
    exact h.time id n hn

/-- `alloc_final` leaves the bitmap and the zones of the process on the disk. -/
theorem final_zones (hB : Backs OnDisk s (a, d)) (hr : Runs wireSem a.final d (some (a', d'))) :
    d'.block.store.map = s.map ∧ ∀ id, 4 ≤ id → d'.block.store.zones id = s.zones id := by
  obtain ⟨disk, hd, hcoh, rfl⟩ := hB
  obtain ⟨r, t', disk', heq, ⟨hmap, hzones⟩, hd'⟩ := runs_of_wp wire_sim (Alloc.within_final a) (final_spec hcoh) hd hr
  cases heq
  refine ⟨?_, fun id hid => ?_⟩
  · show (d'.block 0 0).sub 0 256 = a.map
    rw [show d'.block 0 0 = disk' 0 0 from hd' 0 0 (by decide), hmap]
  · show d'.block.zone id.toNat = disk.zone id.toNat
    rw [zone_block (show d'.Holds disk' from hd'), hzones id.toNat (by omega)]

theorem final_leaves (hB : Backs OnDisk s (a, d)) (hr : Runs wireSem a.final d (some (a', d'))) : s.Same d'.block.store where
  map := (final_zones hB hr).1
  zones id h4 _ := (final_zones hB hr).2 id h4

/-! ## Any number of processes -/

/-- The disk file and the file server that is running, if there is one: format.c empties the disk, a server starts,
    answers safe requests and stops, and another one starts. The disk server has one client: it is started before each. -/
inductive Life : Option (Alloc × PathT) → Disk → Prop where
  | format {d d' : Disk} {a : Alloc} (run : Runs wireSem formatMain d.init (some (a, d'))) : Life none d'
  | start {d d' : Disk} {a : Alloc} (h : Life none d) (run : Runs wireSem Alloc.start.init d.init (some (a, d'))) :
      Life (some (a, .root)) d'
  | request {d d' : Disk} {a a' : Alloc} {pwd pwd' : PathT} {req : Str} {sent : List Msg} (h : Life (some (a, pwd)) d)
      (nul : NulFree req) (short : req.length < 127) (safe : Safe (a.store d.block) pwd (toks req 6))
      (run : Runs (clientSem (stackSem .kept wireSem)) (interpret pwd (toks req 6)) ((a, d), [])
        (some (some pwd', ((a', d'), sent)))) : Life (some (a', pwd')) d'
  | stop {d d' : Disk} {a a' : Alloc} {pwd : PathT} (h : Life (some (a, pwd)) d)
      (run : Runs wireSem a.final d (some (a', d'))) : Life none d'

/-- The store of the running server, or the one that the next server will find. -/
def Life.store : Option (Alloc × PathT) → Disk → Store
  | none, d => d.block.store
  | some (a, _), d => a.store d.block

/-- What holds of a server that is running. -/
structure Serves (s : Store) (u : Alloc × Disk) (pwd : PathT) : Prop where
  backs : Backs OnDisk s u
  inv : ∃ g, Inv s g
  below : pwd.Below

theorem Life.holds {p : Option (Alloc × PathT)} (h : Life p d) :
    (p = none → ∃ g, Inv d.block.store g) ∧ ∀ a pwd, p = some (a, pwd) → Serves (a.store d.block) (a, d) pwd := by
  induction h with
  | format run => exact ⟨fun _ => ⟨.start, (formatMain_formatted run).inv⟩, nofun⟩
  | @start d d' a h run ih =>
    obtain ⟨g, hinv⟩ := ih.1 rfl
    refine ⟨nofun, fun a₁ pwd heq => ?_⟩
    cases heq
    have hB : Backs OnDisk d.init.block.store (a, d') := start_backs run
    have heq : d.init.block.store = a.store d'.block := hB.eq_store
    exact ⟨heq ▸ hB, ⟨g, heq ▸ hinv.same (init_same d)⟩, PathT.root_below⟩
  | @request d d' a a' pwd pwd' req sent h nul short safe run ih =>
    obtain ⟨hB, ⟨g, hinv⟩, hbelow⟩ := ih.2 a pwd rfl
    refine ⟨nofun, fun a₁ pwd₁ heq => ?_⟩
    cases heq
    obtain ⟨-, s', hx, hB'⟩ := request_backs wire_sim hB hbelow.short run
    have hlens : ∀ t ∈ toks req 6, t.length < 2 ^ 15 := fun t ht => by
      have := toks_length req 6 t ht
      omega
    obtain ⟨⟨g', -, hinv'⟩, hpwd'⟩ :=
      interpret_spec rfl rfl hinv hbelow (toks_nulFree req 6) hlens safe Rules.any_follows _ _ hx
    obtain rfl : s' = a'.store d'.block := hB'.eq_store
    refine ⟨hB', ⟨g', hinv'⟩, ?_⟩
    rcases hpwd' pwd' rfl with rfl | ⟨-, -, path, hpath, hp⟩
    · exact hbelow
    · exact hinv.dirs.lookup_below hbelow hpath hp
  | @stop d d' a a' pwd h run ih =>
    obtain ⟨hB, ⟨g, hinv⟩, -⟩ := ih.2 a pwd rfl
    exact ⟨fun _ => ⟨g, hinv.same (final_leaves hB run)⟩, nofun⟩

/-- From a format on, through any number of servers that start, answer safe requests and stop, the zones form a tree
    rooted at zone 4: in the memory and on the disk of a running server, and on the disk alone between two of them. -/
theorem shape_of_life (p : Option (Alloc × PathT)) (d : Disk) (h : Life p d) : Shape (Life.store p d) := by
  obtain ⟨hnone, hsome⟩ := h.holds
  cases p with
  | none =>
    obtain ⟨g, hinv⟩ := hnone rfl
    exact hinv.shape
  | some r =>
    obtain ⟨g, hinv⟩ := (hsome r.1 r.2 rfl).inv
    exact hinv.shape

/-- A server that holds a store comes to its end. -/
theorem exists_stop (hB : Backs OnDisk s (a, d)) : ∃ a' d', Runs wireSem a.final d (some (a', d')) := by
  obtain ⟨disk, hd, hcoh, -⟩ := hB
  obtain ⟨a', d', hr, -⟩ := wireSem_alone.returns (wire_sim.wp (Alloc.within_final a) hd (final_spec hcoh))
  exact ⟨a', d', hr⟩

/-- A running server takes up requests that are safe in every state. -/
theorem Life.requests {reqs : List Str} {log : List (Str × List Msg)} {pwd' : PathT} (h : Life (some (a, pwd)) d)
    (hreqs : ∀ req ∈ reqs, NulFree req ∧ req.length < 127) (hsafe : ∀ req ∈ reqs, ∀ s pwd, Safe s pwd (toks req 6))
    (hrun : answerAll reqs pwd (a.store d.block) = some (log, pwd', s')) :
    ∃ a' d', Life (some (a', pwd')) d' ∧ a'.store d'.block = s' := by
  refine answerAll_keeps (P := .kept) (I := fun _ pwd s => ∃ a d, Life (some (a, pwd)) d ∧ a.store d.block = s) (l := [])
    ?_ ⟨a, d, h, rfl⟩ hrun
  rintro - pwd _ req sent pwd' s' hin ⟨a, d, h, rfl⟩ run
  obtain ⟨hB, -, hbelow⟩ := h.holds.2 a pwd rfl
  obtain ⟨-, ⟨a', d'⟩, hx, hB'⟩ := request_sim (stack_cosim wire_sim wireSem_alone) hB hbelow.short run
  obtain rfl : s' = a'.store d'.block := hB'.eq_store
  exact ⟨a', d', h.request (hreqs req hin).1 (hreqs req hin).2 (hsafe req hin _ pwd) hx, rfl⟩

/-- What one server has written is there when the next one has started. -/
theorem shape_of_life_again : ∃ (a : Alloc) (d : Disk), (a.store d.block).zones 7 0 = 120 ∧
    Shape (Life.store (some (a, .root)) d) := by
  obtain ⟨d₀, a₀, d₁, hformat, hstore⟩ := exists_format
  obtain ⟨a₁, d₂, hstart, hB⟩ := exists_start d₁.init
  have heq : formattedBlocks.store = a₁.store d₂.block := hstore.symm.trans (show d₁.init.block.store = _ from hB.eq_store)
  have hdec : (answerAll [lit "mkdir d", lit "cd d", lit "touch a", lit "append a x"] .root formattedBlocks.store).map
      (fun r => r.2.2.zones 7 0) = some 120 := by decide +kernel
  obtain ⟨⟨log, pwd, s⟩, hanswer, hzone⟩ := Option.map_eq_some_iff.mp hdec
  have hstarted : Life (some (a₁, .root)) d₂ := .start (.format hformat) hstart
  obtain ⟨a₃, d₃, hlife, hs⟩ := hstarted.requests (by decide)
    (fun req hin s pwd => safe_of_head fun w hw => by revert req w; decide) (heq ▸ hanswer)
  have hB₃ := (hlife.holds.2 a₃ pwd rfl).backs
  obtain ⟨a₄, d₄, hstop⟩ := exists_stop hB₃
  obtain ⟨a₅, d₅, hagain, hB₅⟩ := exists_start d₄.init
  refine ⟨a₅, d₅, ?_, shape_of_life _ _ (.start (.stop hlife hstop) hagain)⟩
  have hsame : d₄.init.block.store = a₅.store d₅.block := hB₅.eq_store
  rw [← hsame, (init_same d₄).zones 7 (by decide) (by decide), (final_zones hB₃ hstop).2 7 (by decide), hs]
  exact hzone

/-! ## A server that only looks -/

/-- A request that neither creates nor removes nor writes. -/
def Looks (toks : List Str) : Prop :=
  ∀ w ∈ [lit "touch", lit "mkdir", lit "rm", lit "rmdir", lit "write", lit "append"], toks.head? ≠ some w

instance (toks : List Str) : Decidable (Looks toks) :=
  inferInstanceAs (Decidable (∀ w ∈ [lit "touch", lit "mkdir", lit "rm", lit "rmdir", lit "write", lit "append"], _))

theorem readOnly_interpret {toks : List Str} (h : Looks toks) : ReadOnly (interpret pwd toks) := by
  have hne : ∀ {t : Str} {rest : List Str} (w : Str), toks = t :: rest →
      w ∈ [lit "touch", lit "mkdir", lit "rm", lit "rmdir", lit "write", lit "append"] → t ≠ w := fun w heq hw ht =>
    h w hw (by rw [heq, ht]; rfl)
  have hsend : ∀ (m : Str) (o : Option PathT), ReadOnly (sendMsg m >>= fun _ => .ret o) := fun _ _ => trivial
  have hfailure : ∀ command : FsM Nat, ReadOnly command → ReadOnly (failure pwd command) := fun command hc =>
    .bind hc fun r => by split <;> trivial
  unfold interpret
  split
  · split
    · exact hsend _ _
    split
    · exact .bind (readOnly_list _ _) fun _ => trivial
    · exact hsend _ _
  · rw [if_neg (hne _ rfl (by simp)), if_neg (hne _ rfl (by simp)), if_neg (hne _ rfl (by simp)),
      if_neg (hne _ rfl (by simp))]
    split
    · exact hfailure _ (readOnly_list _ _)
    split
    · exact hfailure _ (readOnly_cat _ _)
    split
    · refine .bind (.bind (readOnly_getPath _ _) fun r => ?_) fun r => hsend _ _
      obtain ⟨o, cut⟩ := r
      cases o with
      | none => trivial
      | some p =>
        refine .bind (readOnly_getState _) fun state => ?_
        split <;> trivial
    · exact hsend _ _
  · rw [if_neg (hne _ rfl (by simp)), if_neg (hne _ rfl (by simp))]
    exact hsend _ _
  · exact hsend _ _

/-- Requests that only look leave the store as it is. -/
theorem requests_look {s₀ : Store} {log : List (Str × List Msg)} (h : Requested (storeSem P) s₀ log pwd s)
    (hlook : ∀ x ∈ log, Looks (toks x.1 6)) : s = s₀ := by
  induction h with
  | start => rfl
  | @request log pwd pwd' u u' req sent h nul short run ih =>
    have hsame : u' = u := (readOnly_interpret (hlook (req, sent) (by simp))).wlp (P := P) _ _ run
    exact hsame.trans (ih fun x hx => hlook x (List.mem_append_left _ hx))

/-- The bitmap and the zones after it are all that there is on the disk. -/
theorem block_eq_of_zones (hmap : (disk' 0 0).sub 0 256 = (disk 0 0).sub 0 256)
    (hz : ∀ id : Nat, 4 ≤ id → disk'.zone id = disk.zone id) {c i : Nat} (hi : i < sectors) : disk' c i = disk c i := by
  funext j
  have hj := j.isLt
  have hblock : ∀ b : BlockArray, b c i j = (b (getC ((c * 32 + i) * 8 + j / 64)) (getS ((c * 32 + i) * 8 + j / 64))).get
      (((c * 32 + i) * 8 + j / 64) % 8 * zoneSize + j % 64) := fun b => by
    have hc : getC ((c * 32 + i) * 8 + j / 64) = c := by
      unfold getC zoneSize blockSize sectors at *
      omega
    have hs : getS ((c * 32 + i) * 8 + j / 64) = i := by
      unfold getS zoneSize blockSize sectors at *
      omega
    have hoff : ((c * 32 + i) * 8 + j.val / 64) % 8 * zoneSize + j % 64 = j := by
      unfold zoneSize
      omega
    rw [hc, hs, hoff]
    exact (Bytes.get_val (b c i) j).symm
  by_cases hid : 4 ≤ (c * 32 + i) * 8 + j.val / 64
  · rw [hblock disk', hblock disk]
    exact congrFun (hz _ hid) ⟨j % 64, Nat.mod_lt _ (by decide)⟩
  · obtain ⟨rfl, rfl⟩ : c = 0 ∧ i = 0 := by omega
    have hlt : j.val < 256 := by omega
    have hsub : ∀ b : Bytes blockSize, b j = b.sub 0 256 ⟨j, hlt⟩ := fun b =>
      (Bytes.get_val b j).symm.trans (congrArg b.get (Nat.zero_add _).symm)
    exact (hsub (disk' 0 0)).trans ((congrFun hmap ⟨j, hlt⟩).trans (hsub (disk 0 0)).symm)

/-- Disk files with the same blocks are the same. -/
theorem file_eq_of_blocks (h : ∀ c i, i < sectors → d'.block c i = d.block c i) : d'.file = d.file := by
  funext o
  have hfile : ∀ d : Disk, d.file o = d.block (o / 16384) (o / 512 % 32) ⟨o % 512, Nat.mod_lt _ (by decide)⟩ := fun d => by
    show d.file o = d.file (blockOff _ _ + o % 512)
    refine congrArg d.file ?_
    unfold blockOff blockSize sectors
    omega
  rw [hfile d', hfile d, h (o / 16384) (o / 512 % 32) (Nat.mod_lt _ (by decide))]

/-- Whatever is on the disk, a server that only lists, shows and changes the working directory leaves every byte of the
    disk file as it was, when it has ended. -/
theorem looking_leaves_disk (P : Policy) (d₀ : Disk) (a : Alloc) (d : Disk)
    (hinit : Runs wireSem Alloc.start.init d₀ (some (a, d))) (log : List (Str × List Msg)) (pwd : PathT) (a' : Alloc)
    (d' : Disk) (h : Requested (stackSem P wireSem) (a, d) log pwd (a', d')) (hlook : ∀ x ∈ log, Looks (toks x.1 6))
    (a'' : Alloc) (d'' : Disk) (hfinal : Runs wireSem a'.final d' (some (a'', d''))) : d''.file = d₀.file := by
  obtain ⟨-, s, hs, hB'⟩ := requests_backs wire_sim (start_backs hinit) h
  obtain rfl : s = d₀.block.store := requests_look hs hlook
  obtain ⟨hmap, hzones⟩ := final_zones hB' hfinal
  refine file_eq_of_blocks fun c i hi => block_eq_of_zones hmap (fun id hid => ?_) hi
  exact hzones id (by omega)

/-- A file with a text and a directory. -/
def smallDisk : Store := servedDisk [lit "mkdir d", lit "touch a", lit "append a x"]

theorem looking_leaves_disk_session : ∃ (log : List (Str × List Msg)) (pwd : PathT) (d : Disk), pwd.id = 5 ∧
    log.map (fun x => (x.1, x.2.take 2)) = [(lit "ls .", [packet (lit "2"), packet (lit "2")]),
      (lit "cat a", [packet (lit "2"), packet (lit "1")]), (lit "cd d", [packet (lit "0")])] ∧
    d.file = smallDisk.toDisk.file := by
  have hdec : (answerAll [lit "ls .", lit "cat a", lit "cd d"] .root smallDisk.toDisk.block.store).map (fun r => decide
      (r.2.1.id = 5 ∧ r.1.map (fun x => (x.1, x.2.take 2)) = [(lit "ls .", [packet (lit "2"), packet (lit "2")]),
        (lit "cat a", [packet (lit "2"), packet (lit "1")]), (lit "cd d", [packet (lit "0")])])) = some true := by
    decide +kernel
  obtain ⟨⟨log, pwd, s⟩, hanswer, hpwd, hlog⟩ := exists_of_decide hdec
  obtain ⟨a, d, hinit, hB⟩ := exists_start smallDisk.toDisk
  obtain ⟨⟨a', d'⟩, hreq, hB'⟩ := exists_requested wire_sim wireSem_alone hB (.answerAll (P := .all) (by decide) hanswer)
  obtain ⟨a'', d'', hfinal⟩ := exists_stop hB'
  have hlines : log.map Prod.fst = [lit "ls .", lit "cat a", lit "cd d"] := by
    have := congrArg (List.map Prod.fst) hlog
    rwa [List.map_map] at this
  have hlook : ∀ req ∈ log.map Prod.fst, Looks (toks req 6) := by
    rw [hlines]
    decide
  exact ⟨log, pwd, d'', hpwd, hlog, looking_leaves_disk .all _ a d hinit log pwd a' d' hreq
    (fun x hx => hlook _ (List.mem_map_of_mem hx)) a'' d'' hfinal⟩

/-! ## A server that is killed -/

/-- No request writes the reserved zones. -/
theorem requests_reserved {s₀ : Store} {log : List (Str × List Msg)} (h : Requested (storeSem P) s₀ log pwd s) :
    ∀ id < 4, s.zones id = s₀.zones id := by
  induction h with
  | start => exact fun _ _ => rfl
  | @request log pwd pwd' u u' req sent h nul short run ih =>
    have hkeep : wlp (clientSem (storeSem P)) (interpret pwd (toks req 6))
        (fun _ v => True ∧ ∀ id < 4, v.1.zones id = u.zones id) (u, []) := by
      refine (Prog.within_any _).wlp (I := fun v : Store × List Msg => ∀ id < 4, v.1.zones id = u.zones id) ?_ ?_ ?_
        fun _ _ => rfl
      · rintro e ⟨s, l⟩ r ⟨s', l'⟩ - ⟨o, ho, heq⟩ hI
        obtain ⟨⟨r', s''⟩, rfl, hm⟩ := Option.map_eq_some_iff.mp heq.symm
        cases hm
        refine ⟨trivial, fun id hid => ?_⟩
        rw [← hI id hid]
        cases e with
        | getState i =>
          obtain ⟨b, -, hb⟩ := Option.map_eq_some_iff.mp (show _ = some (_, _) from Eq.symm ho)
          cases hb
          rfl
        | getFreeId b =>
          obtain ⟨p, -, hp⟩ := Option.map_eq_some_iff.mp (show _ = some (_, _) from Eq.symm ho.1)
          cases hp
          rfl
        | setFreeId i =>
          obtain ⟨m, -, hm⟩ := Option.map_eq_some_iff.mp (show _ = some (_, _) from Eq.symm ho)
          cases hm
          rfl
        | readZone i =>
          cases (show some _ = some _ from ho)
          rfl
        | writeZone i z =>
          cases (show some _ = some _ from ho)
          dsimp only
          split
          · rfl
          · exact if_neg (by omega)
        | time =>
          obtain ⟨t, -, ht⟩ := ho
          cases ht
          rfl
        | stack pDir name =>
          obtain ⟨above, -, ht⟩ := ho
          cases ht
          rfl
        | unset =>
          obtain ⟨v, ht⟩ := ho
          cases ht
          rfl
      · rintro m ⟨s, l⟩ ⟨s', l'⟩ heq hI
        cases heq
        exact hI
      · rintro n ⟨s, l⟩ m ⟨s', l'⟩ ⟨str, -, -, heq⟩ hI
        cases heq
        exact hI
    intro id hid
    rw [(hkeep _ _ run).2 id hid, ih id hid]

/-- A server that is killed after some requests leaves the zones that it has written, but none of the states that it has
    set: a process that starts afterwards, with the disk server that its start needs, finds every zone as it was left, but for
    the last byte of the disk, and in the state that it had when the killed server started. -/
theorem states_lost_when_killed (P : Policy) (d₀ : Disk) (a : Alloc) (d : Disk)
    (hinit : Runs wireSem Alloc.start.init d₀ (some (a, d))) (log : List (Str × List Msg)) (pwd : PathT) (a' : Alloc)
    (d' : Disk) (h : Requested (stackSem P wireSem) (a, d) log pwd (a', d')) (a'' : Alloc) (d'' : Disk)
    (hagain : Runs wireSem Alloc.start.init d'.init (some (a'', d''))) :
    (∀ id, (a''.store d''.block).state id = d₀.block.store.state id) ∧
      ∀ id j, (a''.store d''.block).zones id j = if id = 32767 ∧ j.val = 63 then 0 else (a'.store d'.block).zones id j := by
  obtain ⟨-, s, hs, hB'⟩ := requests_backs wire_sim (start_backs hinit) h
  have hB'' : Backs OnDisk d'.init.block.store (a'', d'') := start_backs hagain
  have hreserved := requests_reserved hs
  obtain rfl : s = a'.store d'.block := hB'.eq_store
  have hstore : d'.init.block.store = a''.store d''.block := hB''.eq_store
  rw [← hstore]
  -- The bitmap is in the zones below 4.
  have hmap : (d'.block 0 0).sub 0 256 = (d₀.block 0 0).sub 0 256 := by
    funext j
    have hj := j.isLt
    have hzone : ∀ b : BlockArray, (b 0 0).sub 0 256 j = b.zone (j / 64) ⟨j % 64, Nat.mod_lt _ (by decide)⟩ := fun b => by
      have hc : getC (j / 64) = 0 := by
        unfold getC zoneSize blockSize sectors
        omega
      have hi : getS (j / 64) = 0 := by
        unfold getS zoneSize blockSize sectors
        omega
      show (b 0 0).get (0 + j) = (b (getC (j / 64)) (getS (j / 64))).get (j / 64 % 8 * zoneSize + j % 64)
      rw [hc, hi]
      refine congrArg _ ?_
      unfold zoneSize
      omega
    rw [hzone, hzone]
    exact congrFun (hreserved ((j / 64 : Nat) : Int) (by omega)) ⟨j % 64, Nat.mod_lt _ (by decide)⟩
  refine ⟨fun id => congrArg (getState · id) ((init_same d').map.trans hmap), fun id j => ?_⟩
  refine (init_zone d' id.toNat j).trans (if_congr ?_ rfl rfl)
  omega

/-- The server is killed after it has made a file and given it a text: the text is on the disk, and the zone of the file is
    free. -/
theorem states_lost_when_killed_append : ∃ (a a' : Alloc) (d d' : Disk), (a.store d.block).state 5 = some iOccupied ∧
    (a'.store d'.block).state 5 = some unoccupied ∧ (a.store d.block).zones 6 0 = 120 ∧
    (a'.store d'.block).zones 6 = (a.store d.block).zones 6 := by
  have hdec : (answerAll [lit "touch a", lit "append a x"] .root emptyDisk.toDisk.block.store).map
      (fun r => decide (r.2.2.state 5 = some iOccupied ∧ r.2.2.zones 6 0 = 120)) = some true := by decide +kernel
  obtain ⟨⟨log, pwd, s⟩, hanswer, hstate, hzone⟩ := exists_of_decide hdec
  obtain ⟨a, d, hinit, hB⟩ := exists_start emptyDisk.toDisk
  obtain ⟨⟨a', d'⟩, hreq, hB'⟩ := exists_requested wire_sim wireSem_alone hB (.answerAll (P := .all) (by decide) hanswer)
  obtain ⟨a'', d'', hagain, -⟩ := exists_start d'.init
  obtain ⟨hstates, hzones⟩ := states_lost_when_killed .all _ a d hinit log pwd a' d' hreq a'' d'' hagain
  obtain rfl : s = a'.store d'.block := hB'.eq_store
  exact ⟨a', a'', d', d'', hstate, (hstates 5).trans (by decide +kernel), hzone,
    funext fun j => (hzones 6 j).trans (if_neg (by omega))⟩

end

end MiniFs
