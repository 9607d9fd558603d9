import MiniFs.Format
import MiniFs.Theorems.Wire

/-! # Requests through all layers

The file server that keeps its zones behind the cache, on a connection to the disk server, answers every sequence of
requests as it would on an array of zones, and the disk file holds this array. -/

namespace MiniFs
open Interact Memory

/-! ## Clients -/

/-- A client that takes every message and sends any strings, beside the state of the server. The messages that it has
    taken are kept. -/
def clientSem {σ : Type} (X : Sem fsSig σ) : Sem fsSig (σ × List Msg) where
  op e t o := ∃ o', X.op e t.1 o' ∧ o = o'.map fun p => (p.1, (p.2, t.2))
  write m t o := o = some (t.1, t.2 ++ [m])
  read n t o := ∃ str, NulFree str ∧ str.length < n ∧ o = some (packet str, t)

/-- The requests that the file server has answered, with the messages that it has sent for each, up to the working
    directory and the state that it is in now. -/
inductive Requested {σ : Type} (X : Sem fsSig σ) (u₀ : σ) : List (Str × List Msg) → PathT → σ → Prop where
  | start : Requested X u₀ [] .root u₀
  | request {log : List (Str × List Msg)} {pwd pwd' : PathT} {u u' : σ} {req : Str} {sent : List Msg}
      (h : Requested X u₀ log pwd u) (nul : NulFree req) (short : req.length < 127)
      (run : Runs (clientSem X) (interpret pwd (toks req 6)) (u, []) (some (some pwd', (u', sent)))) :
      Requested X u₀ (log ++ [(req, sent)]) pwd' u'

/-- The store that a process finds on the disk when it starts. -/
def BlockArray.store (disk : BlockArray) : Store := ⟨(disk 0 0).sub 0 256, fun id => disk.zone id.toNat⟩

/-- A disk file with the bitmap and the zones of a store. -/
def Store.toDisk (s : Store) : Disk := ⟨fun o => if o < 256 then s.map.get o else (s.zones (o / 64 : Nat)).get (o % 64), 0⟩

section
variable {σ δ : Type} {P : Policy} {Y : Sem blockSig δ} {R : BlockArray → δ → Prop} {disk : BlockArray} {t : δ}
  {s s' s₀ : Store}
variable {u u₀ : Alloc × δ} {log : List (Str × List Msg)} {pwd : PathT} {d d' : Disk} {a : Alloc}

/-- A simulation holds of two states with the same client. -/
theorem sim_client {ok : FsOp → Prop} {ans : ∀ e : FsOp, e.Ans → Prop} {τ : Type} {X : Sem fsSig σ} {Z : Sem fsSig τ}
    {B : σ → τ → Prop} (h : X.Sim ok ans Z B) : (clientSem X).Sim ok ans (clientSem Z) fun u v => B u.1 v.1 ∧ u.2 = v.2 where
  op := by
    rintro e ⟨s, l⟩ ⟨t, l'⟩ o he ⟨hB, rfl⟩ ⟨o', ho', rfl⟩
    rcases h.op e s t o' he hB ho' with ⟨rfl, hn⟩ | ⟨r, s', t', rfl, ha, hx, hB'⟩
    · exact Or.inl ⟨rfl, none, hn, rfl⟩
    · exact Or.inr ⟨r, (s', l), (t', l), rfl, ha, ⟨_, hx, rfl⟩, hB', rfl⟩
  write := by
    rintro m ⟨s, l⟩ ⟨t, l'⟩ o ⟨hB, rfl⟩ rfl
    exact Or.inr ⟨(s, l ++ [m]), (t, l ++ [m]), rfl, rfl, hB, rfl⟩
  read := by
    rintro n ⟨s, l⟩ ⟨t, l'⟩ o ⟨hB, rfl⟩ ⟨str, hnul, hlen, rfl⟩
    exact Or.inr ⟨packet str, (s, l), (t, l), rfl, ⟨str, hnul, hlen, rfl⟩, hB, rfl⟩

/-! ## The start of the file server -/

/-- A process that starts holds the store that is on the disk. -/
theorem init_backs (hY : diskSem.Sim InDisk BlockAns Y R) (hR : R disk t) :
    wp Y Alloc.start.init (fun a t' => Backs R disk.store (a, t')) t := by
  refine wp_mono (hY.wp (Alloc.within_init _) hR init_spec) ?_
  rintro a t' ⟨-, disk', ⟨rfl, hcoh, hmap⟩, hR'⟩
  refine ⟨disk', hR', hcoh, ?_⟩
  unfold Alloc.store BlockArray.store
  rw [hmap]

/-! ## Requests -/

/-- A request on the one server is a request on the other one. -/
theorem request_sim {τ : Type} {X : Sem fsSig σ} {Z : Sem fsSig τ} {B : σ → τ → Prop} (h : X.Sim ShortOp ShortAns Z B)
    {x : σ} {z z' : τ} (hB : B x z) (hpwd : pwd.Short) {toks : List Str} {o : Option PathT} {sent : List Msg}
    (hr : Runs (clientSem Z) (interpret pwd toks) (z, []) (some (o, (z', sent)))) :
    (∀ p, o = some p → p.Short) ∧
      ∃ x', Runs (clientSem X) (interpret pwd toks) (x, []) (some (o, (x', sent))) ∧ B x' z' := by
  rcases (sim_client h).runs (s := (x, [])) (short_interpret hpwd toks) ⟨hB, rfl⟩ hr with ⟨heq, -⟩ |
    ⟨o', ⟨x', l⟩, ⟨z'', l'⟩, heq, hq, hx, hB', rfl⟩
  · cases heq
  · cases heq
    exact ⟨hq, x', hx, hB'⟩

/-- Requests on the one server are requests on the other one. -/
theorem requests_sim {τ : Type} {X : Sem fsSig σ} {Z : Sem fsSig τ} {B : σ → τ → Prop} (h : X.Sim ShortOp ShortAns Z B)
    {x₀ : σ} {z₀ z : τ} (hB : B x₀ z₀) (hr : Requested Z z₀ log pwd z) :
    pwd.Short ∧ ∃ x, Requested X x₀ log pwd x ∧ B x z := by
  induction hr with
  | start => exact ⟨PathT.root_short, x₀, .start, hB⟩
  | @request log pwd pwd' z z' req sent _ nul short run ih =>
    obtain ⟨hpwd, x, hx, hB'⟩ := ih
    obtain ⟨hq, x', hrun, hB''⟩ := request_sim h hB' hpwd run
    exact ⟨hq pwd' rfl, x', hx.request nul short hrun, hB''⟩

/-- A request on the layers is one on the store that they hold. -/
theorem request_backs (hY : diskSem.Sim InDisk BlockAns Y R) (hB : Backs R s u) (hpwd : pwd.Short) {toks : List Str}
    {o : Option PathT} {u' : Alloc × δ} {sent : List Msg}
    (hr : Runs (clientSem (stackSem P Y)) (interpret pwd toks) (u, []) (some (o, (u', sent)))) :
    (∀ p, o = some p → p.Short) ∧
      ∃ s', Runs (clientSem (storeSem P)) (interpret pwd toks) (s, []) (some (o, (s', sent))) ∧ Backs R s' u' :=
  request_sim (stack_sim hY) hB hpwd hr

/-- Requests on the layers are requests on the store that they hold. -/
theorem requests_backs (hY : diskSem.Sim InDisk BlockAns Y R) (hB : Backs R s₀ u₀)
    (h : Requested (stackSem P Y) u₀ log pwd u) :
    pwd.Short ∧ ∃ s, Requested (storeSem P) s₀ log pwd s ∧ Backs R s u :=
  requests_sim (stack_sim hY) hB h

/-- What requests do on a store, they do on layers that hold it. -/
theorem exists_requested (hY : diskSem.Sim InDisk BlockAns Y R) (halone : Y.Alone) (hB : Backs R s₀ u₀)
    (h : Requested (storeSem P) s₀ log pwd s) : ∃ u, Requested (stackSem P Y) u₀ log pwd u ∧ Backs R s u :=
  (requests_sim (stack_cosim hY halone) hB h).2

/-- Requests that are run on a store. -/
theorem Requested.answerAll {reqs : List Str} (hreqs : ∀ req ∈ reqs, NulFree req ∧ req.length < 127)
    (hrun : MiniFs.answerAll reqs .root s₀ = some (log, pwd, s)) : Requested (storeSem P) s₀ log pwd s :=
  answerAll_keeps (P := P) (I := Requested (storeSem P) s₀) (l := [])
    (fun _ _ _ req _ _ _ hin h run => h.request (hreqs req hin).1 (hreqs req hin).2 run) .start hrun

/-! ## What is asked of the disk -/

/-- What every call that asks for blocks on the disk keeps, a command keeps that uses ids of 16 bits. -/
theorem stack_keeps {α : Type} {I : δ → Prop} {p : FsM α} {Q : α → Prop} {sent : List Msg} (hp : ShortIds p Q)
    (hcall : ∀ {β : Type} {p : BlockM β} {t t' : δ} {r : β}, BlocksInDisk p (fun _ => True) →
      Runs Y p t (some (r, t')) → I t → I t') (hI : I u.2) :
    wlp (clientSem (stackSem P Y)) p (fun r v => Q r ∧ I v.1.2) (u, sent) := by
  refine hp.wlp (I := fun v : (Alloc × δ) × List Msg => I v.1.2) ?_ ?_ ?_ hI
  · rintro e ⟨u, l⟩ r ⟨u', l'⟩ he ⟨o, ho, heq⟩ hu
    obtain ⟨⟨r', u''⟩, rfl, hm⟩ := Option.map_eq_some_iff.mp heq.symm
    cases hm
    cases e with
    | getState id =>
      obtain ⟨b, -, hb⟩ := Option.map_eq_some_iff.mp (show _ = some (_, _) from Eq.symm ho)
      cases hb
      exact ⟨trivial, hu⟩
    | getFreeId b =>
      obtain ⟨q, hq, hb⟩ := Option.map_eq_some_iff.mp (show _ = some (_, _) from Eq.symm ho.1)
      cases hb
      exact ⟨getFreeId_lt hq, hu⟩
    | setFreeId id =>
      obtain ⟨m, -, hm⟩ := Option.map_eq_some_iff.mp (show _ = some (_, _) from Eq.symm ho)
      cases hm
      exact ⟨trivial, hu⟩
    | readZone id =>
      obtain ⟨o', hr, heq⟩ := ho
      obtain ⟨⟨⟨z, a⟩, t⟩, rfl, hm⟩ := Option.map_eq_some_iff.mp heq.symm
      cases hm
      exact ⟨trivial, hcall (u.1.within_readZone he) hr hu⟩
    | writeZone id z =>
      obtain ⟨o', hr, heq⟩ := ho
      obtain ⟨⟨a, t⟩, rfl, hm⟩ := Option.map_eq_some_iff.mp heq.symm
      cases hm
      exact ⟨trivial, hcall (u.1.within_writeZone he z) hr hu⟩
    | time =>
      obtain ⟨now, -, ht⟩ := ho
      cases ht
      exact ⟨trivial, hu⟩
    | stack pDir name =>
      obtain ⟨above, -, ht⟩ := ho
      cases ht
      exact ⟨trivial, hu⟩
    | unset =>
      obtain ⟨v, ht⟩ := ho
      cases ht
      exact ⟨trivial, hu⟩
  · rintro m ⟨u, l⟩ ⟨u', l'⟩ heq hu
    cases heq
    exact hu
  · rintro n ⟨u, l⟩ m ⟨u', l'⟩ ⟨str, -, -, heq⟩ hu
    cases heq
    exact hu

/-- `diskSem` answers with the block that was asked for. -/
theorem diskSem_ans (e : BlockOp) (disk : BlockArray) (r : e.Ans) (disk' : BlockArray) (_ : InDisk e)
    (h : diskSem.op e disk (some (r, disk'))) : BlockAns e r := by
  cases e with
  | readBlock c s dest =>
    cases h
    exact ⟨rfl, rfl⟩
  | writeBlock src => trivial

theorem logged_call {β : Type} {p : BlockM β} {t t' : BlockArray × List BlockOp} {r : β}
    (hp : BlocksInDisk p fun _ => True) (hr : Runs diskSem.logged p t (some (r, t'))) (ht : ∀ e ∈ t.2, InDisk e) :
    ∀ e ∈ t'.2, InDisk e := (hp.logged diskSem_ans ht _ _ hr).2

theorem requests_in_disk {v₀ v : Alloc × BlockArray × List BlockOp} (h : Requested (stackSem P diskSem.logged) v₀ log pwd v)
    (hv₀ : ∀ e ∈ v₀.2.2, InDisk e) : pwd.Short ∧ ∀ e ∈ v.2.2, InDisk e := by
  induction h with
  | start => exact ⟨PathT.root_short, hv₀⟩
  | @request log pwd pwd' u u' req sent h nul short run ih =>
    obtain ⟨hpwd, hu⟩ := ih
    obtain ⟨hq, hu'⟩ := stack_keeps (short_interpret hpwd (toks req 6)) logged_call hu _ _ run
    exact ⟨hq pwd' rfl, hu'⟩

/-- A call that ends on the array of blocks ends where its requests are recorded. -/
theorem logged_returns {β : Type} {p : BlockM β} {Q : β → BlockArray → Prop} {l : List BlockOp}
    (hp : BlocksInDisk p fun _ => True) (h : wp diskSem p Q disk) :
    ∃ r t, Runs diskSem.logged p (disk, l) (some (r, t)) ∧ Q r t.1 := by
  have hlogged := (Sem.logged_sim diskSem_ans).wp hp (show (disk, l).1 = disk from rfl) h
  obtain ⟨r, t, hr, -, _, hq, rfl⟩ := diskSem_alone.logged.returns hlogged
  exact ⟨r, t, hr, hq⟩

/-- Whatever is on the disk, from the start of the file server through any requests to its end every block that it asks for
    is on the disk, so that the disk server refuses none of them. -/
theorem blocks_in_disk (P : Policy) (disk₀ : BlockArray) (a : Alloc) (t : BlockArray × List BlockOp)
    (hinit : Runs diskSem.logged Alloc.start.init (disk₀, []) (some (a, t))) (log : List (Str × List Msg)) (pwd : PathT)
    (a' : Alloc) (t' : BlockArray × List BlockOp) (h : Requested (stackSem P diskSem.logged) (a, t) log pwd (a', t'))
    (a'' : Alloc) (t'' : BlockArray × List BlockOp) (hfinal : Runs diskSem.logged a'.final t' (some (a'', t''))) :
    ∀ e ∈ t''.2, InDisk e :=
  logged_call (Alloc.within_final _) hfinal (requests_in_disk h (logged_call (Alloc.within_init _) hinit nofun)).2

/-- A file is made, gets a text and is shown: its text comes to the disk. -/
theorem blocks_in_disk_append : ∃ t : BlockArray × List BlockOp, t.1.zone 6 0 = 120 ∧ ∀ e ∈ t.2, InDisk e := by
  have hdec : (answerAll [lit "touch a", lit "append a x", lit "cat a"] .root emptyDisk.toDisk.block.store).map
      (fun r => r.2.2.zones 6 0) = some 120 := by decide +kernel
  obtain ⟨⟨log, pwd, s⟩, hanswer, hzone⟩ := Option.map_eq_some_iff.mp hdec
  have hlogged : diskSem.Sim InDisk BlockAns diskSem.logged fun disk t => t.1 = disk := Sem.logged_sim diskSem_ans
  obtain ⟨a, t, hinit, hB⟩ :=
    diskSem_alone.logged.returns (init_backs hlogged (show (emptyDisk.toDisk.block, ([] : List BlockOp)).1 = _ from rfl))
  obtain ⟨⟨a', t'⟩, hreq, disk, rfl, hcoh, rfl⟩ :=
    exists_requested hlogged diskSem_alone.logged hB (.answerAll (P := .all) (by decide) hanswer)
  obtain ⟨a'', t'', hfinal, -, hzones⟩ := logged_returns (l := t'.2) (Alloc.within_final a') (final_spec hcoh)
  refine ⟨t'', ?_, blocks_in_disk .all _ a t hinit log pwd a' t' hreq a'' t'' hfinal⟩
  rw [hzones 6 (by decide)]
  exact hzone

/-! ## The connection -/

/-- The disk server holds the array of blocks. -/
abbrev OnDisk (disk : BlockArray) (d : Disk) : Prop := d.Holds disk

theorem zone_block (h : d.Holds disk) : d.block.zone = disk.zone := by
  funext id
  unfold BlockArray.zone
  rw [h (getC id) (getS id) (Nat.mod_lt _ (by decide))]

theorem Backs.eq_store (h : Backs OnDisk s (a, d)) : s = a.store d.block := by
  obtain ⟨disk, hd, -, rfl⟩ := h
  unfold Alloc.store
  rw [zone_block (show d.Holds disk from hd)]

theorem wireSem_alone : wireSem.Alone where
  total := wire_total
  write := fun _ _ => rfl
  read := fun _ _ => rfl

/-- The file server starts on every disk. -/
theorem exists_start (d₀ : Disk) :
    ∃ a d, Runs wireSem Alloc.start.init d₀ (some (a, d)) ∧ Backs OnDisk d₀.block.store (a, d) :=
  wireSem_alone.returns (init_backs wire_sim (show d₀.Holds d₀.block from fun _ _ _ => rfl))

/-- Once it has started, the cache and the disk hold what the disk held before. -/
theorem start_backs {d₀ : Disk} (hinit : Runs wireSem Alloc.start.init d₀ (some (a, d))) :
    Backs OnDisk d₀.block.store (a, d) := by
  obtain ⟨a₁, t, heq, hB⟩ := wp_iff_runs.mp (init_backs wire_sim (show d₀.Holds d₀.block from fun _ _ _ => rfl)) _ hinit
  cases heq
  exact hB

/-- `format` leaves the bitmap of an empty disk in memory. -/
theorem format_map : wp diskSem a.format (fun r _ => setState .zero 4 dOccupied = some r.map) disk := by
  have hmap : ∃ m : Bitmap, setState .zero 4 dOccupied = some m := ⟨_, rfl⟩
  obtain ⟨m, hm⟩ := hmap
  unfold Alloc.format
  refine wp_bind.mpr (writeBlockOp_spec ?_)
  rw [hm]
  exact wp_bind.mpr (wp_ret.mpr (wp_ret.mpr rfl))

theorem within_formatMain : BlocksInDisk formatMain fun _ => True :=
  (Alloc.within_init _).seq fun _ _ => (Alloc.within_format _).seq fun _ _ => Alloc.within_final _

/-- format.c makes an empty file system of an array of blocks. -/
theorem formatMain_spec : wp diskSem formatMain (fun _ disk' => Formatted disk'.store) disk := by
  refine wp_seq init_spec ?_
  rintro a₁ _ ⟨rfl, -, -⟩
  refine wp_seq (wp_and Alloc.format_spec format_map) ?_
  rintro a₂ disk₂ ⟨⟨hz, hcoh⟩, hmap⟩
  refine wp_mono (final_spec hcoh) ?_
  rintro - disk₃ ⟨hmap₃, hz₃⟩
  refine ⟨?_, fun id hid hlt => ?_⟩
  · rw [hmap]
    exact congrArg some hmap₃.symm
  · show disk₃.zone id.toNat = .zero
    rw [hz₃ id.toNat (by omega), hz]
    exact if_pos (by omega)

/-- Whatever is on the disk before, format.c leaves an empty file system there. -/
theorem formatMain_leaves (d : Disk) : wp wireSem formatMain (fun _ d' => Formatted d'.block.store) d := by
  refine wp_mono (wire_sim.wp within_formatMain (show d.Holds d.block from fun _ _ _ => rfl) formatMain_spec) ?_
  rintro a d' ⟨-, disk', hf, hd'⟩
  refine ⟨?_, fun id hid hlt => ?_⟩
  · show _ = some ((d'.block 0 0).sub 0 256)
    rw [show d'.block 0 0 = disk' 0 0 from hd' 0 0 (by decide)]
    exact hf.map
  · show d'.block.zone id.toNat = .zero
    rw [zone_block (show d'.Holds disk' from hd')]
    exact hf.zones id hid hlt

theorem formatMain_formatted (hr : Runs wireSem formatMain d (some (a, d'))) : Formatted d'.block.store :=
  wlp_of_wp (formatMain_leaves d) a d' hr

/-! ## Starting the disk server -/

/-- Two stores with the same states, and the same zones wherever there is a state, the reserved zones apart. -/
structure Store.Same (s s' : Store) : Prop where
  map : s'.map = s.map
  zones : ∀ id, 4 ≤ id → id < 1024 → s'.zones id = s.zones id

theorem Store.Same.state (h : s.Same s') (id : Int) : s'.state id = s.state id := congrArg (getState · id) h.map

theorem Formatted.same (h : Formatted s) (hs : s.Same s') : Formatted s' where
  map := by rw [hs.map, h.map]
  zones id h4 h8 := by rw [hs.zones id h4 (by omega), h.zones id h4 h8]

/-- Of all zones only the last one can tell that the disk server has been started. -/
theorem init_zone (d : Disk) (id : Nat) (j : Fin 64) :
    d.init.block.zone id j = if id = 32767 ∧ j.val = 63 then 0 else d.block.zone id j := by
  have hinit : d.init.block.zone id = d.block.init.zone id := by
    have hs : getS id < sectors := Nat.mod_lt _ (by decide)
    unfold BlockArray.zone
    rw [d.init_block hs]
  rw [hinit, BlockArray.zone_init]

/-- The zones that have a state and the bitmap are before the byte that `disk_init` writes. -/
theorem init_same (d : Disk) : d.block.store.Same d.init.block.store where
  map := by
    have hblock : d.init.block 0 0 = d.block 0 0 := by
      rw [d.init_block (by decide)]
      unfold BlockArray.init BlockArray.put
      rw [if_neg (by decide)]
    exact congrArg (fun b : Bytes 512 => b.sub 0 256) hblock
  zones id _ hlt := by
    funext j
    exact (init_zone d id.toNat j).trans (if_neg (by omega))

/-! ## Three processes -/

/-- The shell, the file server behind its cache and the disk server below it. -/
def layersLink (P : Policy) : Link clientSig fsSig Unit (Alloc × Disk) CommandLine Prompt PathT :=
  (shellLink P OneReply).over (stackSem P wireSem) fun u => u.1.store u.2.block

theorem PathT.Below.short (h : pwd.Below) : pwd.Short := fun id hid => (h id hid).trans (by omega)

/-- A round of the server on the layers is one on the store that they hold. -/
theorem serve_backs {u : Alloc × Disk} {A : Session} {Q : Option PathT → Store × Session → Prop}
    (hB : Backs OnDisk (u.1.store u.2.block) u) (hpwd : pwd.Below)
    (hw : wp (storeSem P).talk (serve pwd) Q (u.1.store u.2.block, A)) :
    wp (stackSem P wireSem).talk (serve pwd) (fun o v => Backs OnDisk (v.1.1.store v.1.2.block) v.1 ∧
      Q o (v.1.1.store v.1.2.block, v.2)) (u, A) := by
  have hserve : ShortIds (serve pwd) := .seq (p := getMsg) (fun _ => trivial) fun req => by
    cases req with
    | none => trivial
    | some req => exact (short_interpret hpwd.short _).mono fun _ _ => trivial
  refine wp_mono ((stack_sim (P := P) wire_sim).talk.wp hserve (s := (u.1.store u.2.block, A)) ⟨hB, rfl⟩ hw) ?_
  rintro o ⟨u', B⟩ ⟨-, ⟨s', B'⟩, hq, hB', rfl⟩
  obtain rfl : s' = u'.1.store u'.2.block := hB'.eq_store
  exact ⟨hB', hq⟩

theorem layersLink_atomic (hP : P.room = true) (hS : P.slots = true) :
    (layersLink P).Atomic
      (fun pwd u => Backs OnDisk (u.1.store u.2.block) u ∧ (∃ g, Inv (u.1.store u.2.block) g) ∧ pwd.Below)
      (fun pwd u line r pwd' u' => Backs OnDisk (u'.1.store u'.2.block) u' ∧
        Kept P pwd (u.1.store u.2.block) line r pwd' (u'.1.store u'.2.block)) :=
  (shellLink_atomic hP hS).refine (Y := stackSem P wireSem) (R := fun u => Backs OnDisk (u.1.store u.2.block) u)
    (f := fun u => u.1.store u.2.block) fun _ _ _ _ hB hinv hw => serve_backs hB hinv.2 hw

/-- The file server starts on the store of the disk that was formatted. -/
theorem layers_start {d₀ d₁ : Disk} {a₀ : Alloc} (hformat : Runs wireSem formatMain d₀.init (some (a₀, d₁)))
    (hinit : Runs wireSem Alloc.start.init d₁.init (some (a, d))) :
    Backs OnDisk (a.store d.block) (a, d) ∧ Formatted (a.store d.block) ∧ d₁.init.block.store = a.store d.block := by
  have hB : Backs OnDisk d₁.init.block.store (a, d) := start_backs hinit
  have heq : d₁.init.block.store = a.store d.block := hB.eq_store
  exact ⟨heq ▸ hB, heq ▸ (formatMain_formatted hformat).same (init_same d₁), heq⟩

end

/-! ## A formatted disk -/

/-- One way to answer the calls of utils.c. -/
def diskMachine : Machine blockSig BlockArray where
  op e a := match e with
    | .readBlock c s _ => some ((⟨a c s, c, s⟩ : Block), a)
    | .writeBlock src => some ((), a.put src.c src.s src.zones)
  write _ _ := none
  read _ _ := none

theorem diskMachine_exec {α : Type} {p : BlockM α} {disk disk' : BlockArray} {r : α}
    (h : diskMachine.exec p disk = some (r, disk')) : wp diskSem p (fun x t => x = r ∧ t = disk') disk :=
  Machine.wp_exec (fun e a q o hq ho => by
    cases e with
    | readBlock c s dest => exact ho.trans hq
    | writeBlock src => exact ho.trans hq) nofun nofun h

/-- The blocks of a disk of zeros that has been formatted. -/
def formattedBlocks : BlockArray := ((diskMachine.exec formatMain fun _ _ => .zero).map Prod.snd).getD fun _ _ => .zero

theorem exists_format : ∃ d₀ a₀ d₁, Runs wireSem formatMain (Disk.init d₀) (some (a₀, d₁)) ∧
    d₁.init.block.store = formattedBlocks.store := by
  obtain ⟨a₁, hexec⟩ : ∃ a₁, diskMachine.exec formatMain (fun _ _ => .zero) = some (a₁, formattedBlocks) := by
    have hsome : (diskMachine.exec formatMain fun _ _ => .zero).isSome = true := by decide +kernel
    obtain ⟨⟨a₁, disk⟩, hexec⟩ := Option.isSome_iff_exists.mp hsome
    refine ⟨a₁, ?_⟩
    unfold formattedBlocks
    rw [hexec]
    rfl
  have hzero : (Disk.init ⟨fun _ => 0, 0⟩).Holds fun _ _ => .zero := fun c i hi => by
    funext j
    rw [Disk.init_block _ hi, BlockArray.init_byte]
    exact ite_self 0
  obtain ⟨a₀, d₁, hr, -, disk, ⟨-, rfl⟩, hd⟩ :=
    wireSem_alone.returns (wire_sim.wp within_formatMain hzero (diskMachine_exec hexec))
  refine ⟨_, a₀, d₁, hr, ?_⟩
  have hd : d₁.Holds formattedBlocks := hd
  -- The last byte of the disk is zero already.
  have hlast : formattedBlocks 127 31 511 = 0 := by decide +kernel
  have hinit : d₁.init.Holds formattedBlocks := fun c i hi => by
    funext j
    rw [Disk.init_block _ hi, BlockArray.init_byte, hd c i hi]
    split
    · next h =>
      obtain ⟨rfl, rfl, hj⟩ := h
      rw [show j = 511 from Fin.ext hj, hlast]
    · rfl
  unfold BlockArray.store
  rw [zone_block hinit, show d₁.init.block 0 0 = formattedBlocks 0 0 from hinit 0 0 (by decide)]

end MiniFs
