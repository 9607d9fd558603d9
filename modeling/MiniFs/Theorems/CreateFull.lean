import MiniFs.Theorems.Commands
import MiniFs.Theorems.Exhaustion
import MiniFs.Theorems.PackedDir

/-! # Creating on a full disk

`mk_file` and `mk_dir` take a zone for the object. `add_sub` takes another one when the last zone of the directory is
full, and returns nothing: where there is none, the `next` field of that zone becomes -1 and the command succeeds. -/

namespace MiniFs
open Interact Memory

namespace Store

/-- All slots in the last zone of directory `d` are used. -/
def TailFull (s : Store) (d : Int) : Prop :=
  ∀ i < (s.lastZone zoneFuel dentry d).1.subs,
    (s.lastZone zoneFuel dentry d).1.subId (s.zones (s.lastZone zoneFuel dentry d).2) i ≠ 0

end Store

/-- `path` does not resolve in some run, and in each such run it names `name` in directory `d`. -/
structure NewIn (s : Store) (pwd : PathT) (path : Str) (d : Int) (name : Str) : Prop where
  unresolved : may drainSem (getPath pwd path) (fun r _ => r.1 = none) s
  parent : wp drainSem (getPath pwd path) (fun r t => t = s ∧ (r.1 = none → ∃ rest, rmName r.2 = some (name, rest) ∧
    wp drainSem (getPath pwd rest) (fun r' t' => t' = s ∧ ∃ p, r'.1 = some p ∧ p.id = d) s)) s

/-- What `mk_file` and `mk_dir` are to do with directory `d`: either the new entry is listed and its zone has the state
    `b`, or neither the directory nor the bitmap has changed. The directory is well formed in both cases. -/
def CreationRight (s : Store) (d : Int) (b : Byte) (name : Str) (r : Nat) (s' : Store) : Prop :=
  ∃ es rest, DirChain s' d es rest ∧
    (r = 0 ∧ (∃ id, s.state id = some unoccupied ∧ s'.state id = some b ∧ s'.listing d = s.listing d ++ [(name, id)]) ∨
      r = 1 ∧ DirChain s d es rest ∧ s'.map = s.map ∧ ∀ i ∈ d :: rest.map Prod.fst, s'.zones i = s.zones i)

section
variable {s : Store} {L : Layout} {d id z : Int} {es : List Entry} {rest : List Seg} {name : Str} {zone : Zone}

/-! ## The last zone -/

theorem DirChain.tailFull_iff (h : DirChain s d es rest) :
    s.TailFull d ↔ ¬(lastEntries es rest).length < lastSubs dentry rest := by
  obtain ⟨hsubs, hentries⟩ := h.chain.lastZone_entries h.length_rest
  have hle := hentries.le
  unfold Store.TailFull
  rw [← hsubs]
  constructor
  · intro hfull hlt
    exact hfull _ hlt ((hentries.subId_eq_zero hlt).mpr (Nat.le_refl _))
  · intro hfull i hi hzero
    have := (hentries.subId_eq_zero hi).mp hzero
    omega

/-! ## `add_sub` without a free zone -/

/-- The chain is broken at its last zone, by induction on the zones after `z`. -/
theorem drain_addSubAt (hL : L.Ok) {fuel : Nat} (hfuel : rest.length < fuel) (h4 : 4 ≤ z) (hfree : s.free = 0)
    (hchain : Chain (s.write z zone).zones L z es rest) (hnodup : (z :: rest.map Prod.fst).Nodup)
    (hfull : ¬(lastEntries es rest).length < lastSubs L rest) (hlen : name.length ≤ 9) :
    wp drainSem (addSubAt L (addSubCont fuel · id name) z id name zone)
      (fun _ s' => (∀ es' rest', ¬Chain s'.zones L z es' rest') ∧
        ∀ i, i ≠ z → i ∉ rest.map Prod.fst → s'.zones i = s.zones i) s := by
  induction rest generalizing s L z zone es fuel with
  | nil =>
    have hpos := hL.pos
    have hentries : Entries L zone es := by simpa using hchain.1
    have hnext : L.next zone = 0 := by simpa using hchain.2
    rw [lastEntries, lastSubs, if_pos rfl] at hfull
    have hused : L.subId zone (L.subs - 1) ≠ 0 := by
      rw [ne_eq, hentries.subId_eq_zero (by omega)]
      omega
    have hlink : L.next (L.setNext zone (-1)) = -1 := next_setNext hL ⟨by decide, by decide⟩
    unfold addSubAt
    rw [if_neg (not_not.mpr hnext), if_pos hused]
    refine wp_bind.mpr ((drain_getFreeId hfree).mpr (wp_bind.mpr (wp_of_le drainSem_le (writeZone_spec h4 ?_))))
    dsimp only
    rw [strcpy_eq dirZone_ok (by decide) hlen, hlink]
    refine wp_bind.mpr (wp_ret.mpr (wp_of_le drainSem_le (writeZone_null (by decide) ⟨fun es' rest' hch => ?_, ?_⟩)))
    · cases rest' with
      | nil =>
        have hzero := hch.2
        rw [Store.zones_write_self, hlink] at hzero
        exact absurd hzero (by decide)
      | cons seg rest' =>
        obtain ⟨-, -, hseg, h4', -⟩ := hch
        rw [Store.zones_write_self, hlink] at hseg
        omega
    · exact fun i hi _ => Store.zones_write_of_ne _ hi
  | cons seg rest ih =>
    obtain ⟨hentries, -, hnext, hseg, hrest⟩ := hchain
    rw [Store.zones_write_self] at hentries hnext
    obtain ⟨hz, hnodup⟩ := List.nodup_cons.mp hnodup
    rw [List.map_cons, List.mem_cons, not_or] at hz
    obtain ⟨fuel, rfl⟩ := Nat.exists_eq_succ_of_ne_zero (by omega : fuel ≠ 0)
    unfold addSubAt
    rw [if_pos (by rw [hnext]; omega), hnext]
    refine wp_bind.mpr (wp_of_le drainSem_le (writeZone_spec h4 ?_))
    unfold addSubCont
    refine wp_bind.mpr (wp_of_le drainSem_le (readZone_spec hseg ?_))
    rw [lastSubs_cons] at hfull
    refine wp_mono (ih dirZone_ok (by simpa using hfuel) hseg hfree (by rwa [Store.write_self]) hnodup hfull) ?_
    rintro - s' ⟨hbroken, hframe⟩
    have hzone : s'.zones z = zone := by rw [hframe z hz.1 hz.2, Store.zones_write_self]
    refine ⟨fun es' rest' hch => ?_, fun i hi hchain => ?_⟩
    · cases rest' with
      | nil =>
        have hzero := hch.2
        rw [hzone, hnext] at hzero
        omega
      | cons seg' rest' =>
        obtain ⟨-, -, hnext', -, hrest'⟩ := hch
        rw [hzone, hnext] at hnext'
        exact hbroken seg'.2 rest' (hnext' ▸ hrest')
    · rw [List.map_cons, List.mem_cons, not_or] at hchain
      rw [hframe i hchain.1 hchain.2, Store.zones_write_of_ne _ hi]

theorem drain_addSub (h : DirChain s d es rest) (hfree : s.free = 0) (hfull : s.TailFull d) (hlen : name.length ≤ 9) :
    wp drainSem (addSub d id name) (fun _ s' => ∀ es' rest', ¬DirChain s' d es' rest') s := by
  unfold addSub
  refine wp_bind.mpr (wp_of_le drainSem_le (readZone_spec h.le ?_))
  refine wp_bind.mpr (wp_of_le drainSem_le (time_spec fun t _ => ?_))
  refine wp_mono (drain_addSubAt dentry_ok h.length_rest h.le hfree (h.chain.setTime h.zones) h.zones
    (h.tailFull_iff.mp hfull)
    hlen) ?_
  exact fun _ s' hs es' rest' h' => hs.1 es' rest' h'.chain

end

/-! ## `mk_file` and `mk_dir` -/

section
variable {s s' : Store} {d : Int} {es : List Entry} {rest : List Seg} {n : Node} {make : Int → UInt64 → Zone} {pwd : PathT}
  {path name : Str} {Q : Nat → Store → Prop}

theorem mkNode_of_enter (hnew : NewIn s pwd path d name) (hstate : s.state d = some dOccupied) (hfail : Q 1 s)
    (h : wp drainSem (enter n.state make d name) Q s) : wp drainSem (mkNode n.state make pwd path) Q s := by
  unfold mkNode
  refine wp_bind.mpr (wp_mono hnew.parent ?_)
  rintro ⟨r, cut⟩ t ⟨rfl, hnone⟩
  cases r with
  | some p => exact wp_ret.mpr hfail
  | none =>
    obtain ⟨rest, hrm, hdir⟩ := hnone rfl
    dsimp only at hrm ⊢
    rw [hrm]
    refine wp_bind.mpr (wp_ret.mpr (wp_bind.mpr (wp_mono hdir ?_)))
    rintro ⟨r, cut'⟩ t ⟨rfl, p, rfl, rfl⟩
    refine wp_bind.mpr (wp_of_le drainSem_le (getState_spec hstate ?_))
    rw [if_neg (not_not.mpr rfl)]
    exact h

theorem enter_of_mkNode (hnew : NewIn s pwd path d name) (hstate : s.state d = some dOccupied)
    (h : wp drainSem (mkNode n.state make pwd path) Q s) : wp drainSem (enter n.state make d name) Q s := by
  unfold mkNode at h
  obtain ⟨⟨r, cut⟩, t, ⟨⟨rfl, hnone⟩, hrun⟩, hr⟩ := may_of_wp (wp_and hnew.parent (wp_bind.mp h)) hnew.unresolved
  obtain rfl : r = none := hr
  obtain ⟨rest, hrm, hdir⟩ := hnone rfl
  dsimp only at hrm hrun
  rw [hrm] at hrun
  have hget := wp_bind.mp ((wp_ret (a := (name, rest))).mp (wp_bind.mp hrun))
  obtain ⟨⟨r, cut'⟩, t, ⟨rfl, p, rfl, rfl⟩, hget⟩ := drain_exists (wp_and hdir hget)
  have henter := drain_getState hstate (wp_bind.mp hget)
  rwa [if_neg (not_not.mpr rfl)] at henter

/-- The object has its zone and has not been listed yet. -/
theorem DirChain.orphan {id : Int} {z : Zone} {s₁ : Store} (h : DirChain s d es rest)
    (hfree : s.state id = some unoccupied) (hset : s.SetState id n.state s₁) : DirChain (s₁.write id z) d es rest := by
  have hne : ∀ i ∈ d :: rest.map Prod.fst, i ≠ id := by
    rintro i hi rfl
    obtain ⟨b, hb, hused⟩ := h.used i hi
    exact hused (Option.some.inj (hb.symm.trans hfree))
  have hzone : ∀ i ∈ d :: rest.map Prod.fst, (s₁.write id z).zones i = s.zones i := fun i hi => by
    rw [Store.zones_write_of_ne _ (hne i hi), hset.zones]
  refine ⟨h.le, h.chain.congr (hzone d List.mem_cons_self) fun i hi => hzone i (List.mem_cons_of_mem _ hi), h.zones,
    fun i hi => ?_⟩
  obtain ⟨b, hb, hused⟩ := h.used i hi
  exact ⟨b, (hset.state i).trans ((if_neg (hne i hi)).trans hb), hused⟩

/-- The object takes the last free zone, so that the chain cannot grow. -/
theorem drain_enter (h : DirChain s d es rest) (hb : IsState n.state) (hlen : name.length ≤ 9) (hone : s.free = 1)
    (hfull : s.TailFull d) :
    wp drainSem (enter n.state make d name) (fun _ s' => ∀ es' rest', ¬DirChain s' d es' rest') s := by
  unfold enter
  have hroom : s.Room .all (0 + 1) := Or.inr (Nat.le_of_eq hone.symm)
  refine wp_bind.mpr (wp_of_le drainSem_le (getFreeId_spec hb n.state_ne.2 hroom fun id s₁ h4 hlt hfree hset _ => ?_))
  rw [if_neg (by omega)]
  refine wp_bind.mpr (wp_of_le drainSem_le (time_spec fun now _ => ?_))
  refine wp_bind.mpr (wp_of_le drainSem_le (writeZone_spec h4 ?_))
  have horphan : DirChain (s₁.write id (make d now)) d es rest := h.orphan hfree hset
  have hzero : (s₁.write id (make d now)).free = 0 := by
    have htaken := hset.free h4 hfree n.state_ne.2
    show s₁.free = 0
    omega
  have hstill : (s₁.write id (make d now)).TailFull d := horphan.tailFull_iff.mpr (h.tailFull_iff.mp hfull)
  exact wp_bind.mpr (wp_mono (drain_addSub horphan hzero hstill hlen) fun _ _ hs => wp_ret.mpr hs)

theorem enter_right (h : DirChain s d es rest) (hb : IsState n.state) (hname : NulFree name) (hlen : name.length ≤ 9)
    (hok : ¬(s.free = 1 ∧ s.TailFull d)) : wp drainSem (enter n.state make d name) (CreationRight s d n.state name) s := by
  unfold enter
  by_cases hzero : s.free = 0
  · refine wp_bind.mpr ((drain_getFreeId hzero).mpr ?_)
    rw [if_pos (by decide)]
    exact wp_ret.mpr ⟨es, rest, h, Or.inr ⟨rfl, h, rfl, fun _ _ => rfl⟩⟩
  have hneed : (if (lastEntries es rest).length < lastSubs dentry rest then 0 else 1) + 1 ≤ s.free := by
    by_cases hlt : (lastEntries es rest).length < lastSubs dentry rest
    · rw [if_pos hlt]
      omega
    · have hone : s.free ≠ 1 := fun hone => hok ⟨hone, h.tailFull_iff.mpr hlt⟩
      rw [if_neg hlt]
      omega
  refine wp_bind.mpr (wp_of_le drainSem_le (getFreeId_spec hb n.state_ne.2 (Or.inr hneed)
    fun id s₁ h4 hlt hfree hset hroom => ?_))
  rw [if_neg (by omega)]
  refine wp_bind.mpr (wp_of_le drainSem_le (time_spec fun now _ => ?_))
  refine wp_bind.mpr (wp_of_le drainSem_le (writeZone_spec h4 ?_))
  have horphan : DirChain (s₁.write id (make d now)) d es rest := h.orphan hfree hset
  refine wp_bind.mpr (wp_mono (wp_of_le drainSem_le (horphan.add ⟨h4, by omega⟩ hname hlen hroom)) ?_)
  rintro - s' ⟨es', rest', new, time, h', hadded⟩
  refine wp_ret.mpr ⟨es', rest', h', Or.inl ⟨rfl, id, hfree, ?_, ?_⟩⟩
  · have hset' : s₁.state id = some n.state := (hset.state id).trans (if_pos rfl)
    have hnot : id ∉ new := hadded.takes.not_mem ⟨_, hset', n.state_ne.2⟩
    rw [hadded.takes.state, if_neg hnot]
    exact hset'
  · rw [h'.listing_eq, h.listing_eq, hadded.entries]

end

/-- `mk_file` and `mk_dir` with the state of what they create. -/
inductive CreateCommand : (PathT → Str → FsM Nat) → Byte → Prop where
  | mkFile : CreateCommand mkFile iOccupied
  | mkDir : CreateCommand mkDir dOccupied

theorem CreateCommand.node {mk : PathT → Str → FsM Nat} {b : Byte} (h : CreateCommand mk b) :
    ∃ (n : Node) (make : Int → UInt64 → Zone), mk = mkNode n.state make ∧ b = n.state ∧ IsState n.state := by
  cases h with
  | mkFile => exact ⟨.file [], newInode, rfl, rfl, isState_iOccupied⟩
  | mkDir => exact ⟨.dir [] [], newDentry, rfl, rfl, isState_dOccupied⟩

theorem DirChain.create_iff {s : Store} {d : Int} {es : List Entry} {rest : List Seg} {pwd : PathT} {path name : Str}
    {mk : PathT → Str → FsM Nat} {b : Byte} (h : DirChain s d es rest) (hmk : CreateCommand mk b)
    (hnew : NewIn s pwd path d name) (hstate : s.state d = some dOccupied) (hname : NulFree name)
    (hlen : name.length ≤ 9) :
    wp drainSem (mk pwd path) (CreationRight s d b name) s ↔ ¬(s.free = 1 ∧ s.TailFull d) := by
  obtain ⟨n, make, rfl, rfl, hb⟩ := hmk.node
  constructor
  · rintro hright ⟨hone, hfull⟩
    have henter := enter_of_mkNode hnew hstate hright
    obtain ⟨r, s', ⟨es', rest', h', -⟩, hbroken⟩ := drain_exists (wp_and henter (drain_enter h hb hlen hone hfull))
    exact hbroken es' rest' h'
  · intro hok
    exact mkNode_of_enter hnew hstate ⟨es, rest, h, Or.inr ⟨rfl, h, rfl, fun _ _ => rfl⟩⟩ (enter_right h hb hname hlen hok)

/-- `mk_file` and `mk_dir` are right unless exactly one zone is free and the last zone of the directory is full. -/
theorem creation_right_iff (s : Store) (pwd : PathT) (path name : Str) (d : Int) (es : List Entry) (rest : List Seg)
    (mk : PathT → Str → FsM Nat) (b : Byte) (hmk : CreateCommand mk b) (h : DirChain s d es rest)
    (hstate : s.state d = some dOccupied) (hnew : NewIn s pwd path d name) (hname : NulFree name)
    (hlen : name.length ≤ 9) :
    wp drainSem (mk pwd path) (CreationRight s d b name) s ↔ ¬(s.free = 1 ∧ s.TailFull d) :=
  h.create_iff hmk hnew hstate hname hlen

/-! ### Names for the working directory -/

theorem storeMachine_drain : storeMachine.Of drainSem where
  op := by
    rintro e s p hp
    cases e with
    | getFreeId b =>
      refine Or.inr ⟨fun hfree => ?_, (storeMachine_of .all).op _ s p hp⟩
      have hp : (getFreeId s.map b).map _ = some p := hp
      rw [getFreeId_of_free b hfree] at hp
      cases hp
    | getState id => exact (storeMachine_of .all).op (.getState id) s p hp
    | setFreeId id => exact (storeMachine_of .all).op (.setFreeId id) s p hp
    | readZone id => exact (storeMachine_of .all).op (.readZone id) s p hp
    | writeZone id z => exact (storeMachine_of .all).op (.writeZone id z) s p hp
    | time => exact (storeMachine_of .all).op .time s p hp
    | stack pDir name => exact (storeMachine_of .all).op (.stack pDir name) s p hp
    | unset => exact (storeMachine_of .all).op .unset s p hp
  write := fun _ _ _ hp => nomatch hp
  read := fun _ _ _ hp => nomatch hp

/-- A name without a slash that the machine does not find is new in the working directory. -/
theorem newIn_here {s : Store} {pwd : PathT} {name : Str} (hplain : Plain name) (hslash : slash ∉ name)
    (hlen : name.length ≤ 9) (hstate : s.state pwd.id = some dOccupied)
    (hnone : (storeMachine.exec (getPath pwd name) s).map (·.1.1) = some none) : NewIn s pwd name pwd.id name := by
  obtain ⟨⟨⟨r, cut⟩, t⟩, hexec, hr⟩ := Option.map_eq_some_iff.mp hnone
  refine ⟨⟨_, _, storeMachine_drain.runs hexec, hr⟩, ?_⟩
  cases name with
  | nil => exact absurd rfl hplain.nil
  | cons c rest =>
    have hne : c ≠ slash := fun heq => hslash (heq ▸ List.mem_cons_self)
    have hrm := @rmName_of_not_mem c rest fun h => hslash (List.mem_cons_of_mem _ h)
    unfold getPath
    dsimp only
    rw [if_neg hne]
    unfold getPathFromPwd
    rw [if_neg (not_or.mpr ⟨hplain.nil, hplain.dot⟩), if_neg hplain.dots, if_neg hplain.here, if_neg hplain.up]
    refine wp_bind.mpr (wp_of_le drainSem_le (getState_spec hstate ?_))
    rw [if_neg (not_not.mpr rfl), pathClone_eq]
    unfold getPathFromRoot
    rw [if_neg (not_or.mpr ⟨hplain.nil, hplain.dot⟩), if_neg hplain.dots, if_neg hplain.here, if_neg hplain.up]
    refine wp_bind.mpr (wp_of_le drainSem_le (getState_spec hstate ?_))
    rw [if_neg (not_not.mpr rfl), takeWhile_of_not_mem hslash]
    dsimp only
    unfold getSubPath
    refine wp_bind.mpr (wp_bind.mpr (wp_of_le drainSem_le (readZone_spec (Store.le_of_state hstate (by decide)) ?_)))
    refine wp_bind.mpr (wp_of_le drainSem_le (stack_spec fun above _ => ?_))
    dsimp only
    cases scanSubs (frame (s.zones pwd.id) above) (c :: rest) 10 0 with
    | none => exact wp_ret.mpr (wp_ret.mpr ⟨rfl, fun _ => ⟨[], hrm, wp_ret.mpr ⟨rfl, pwd, rfl, rfl⟩⟩⟩)
    | some idx =>
      dsimp only
      rw [if_pos (by omega)]
      refine wp_ret.mpr ?_
      dsimp only
      rw [if_neg (Nat.lt_irrefl _)]
      exact wp_ret.mpr ⟨rfl, fun h => absurd h (Option.some_ne_none _)⟩

/-- A file is created on a formatted disk. -/
theorem creation_right_iff_formatted :
    wp drainSem (mkFile .root (lit "a")) (CreationRight emptyDisk 4 iOccupied (lit "a")) emptyDisk := by
  have hchain : DirChain emptyDisk 4 [] [] :=
    ⟨by decide, ⟨entries_blank, Bytes.int16_zero _⟩, List.nodup_singleton _, fun i hi =>
      List.mem_singleton.mp hi ▸ ⟨dOccupied, by decide +kernel, by decide⟩⟩
  have hnew : NewIn emptyDisk .root (lit "a") 4 (lit "a") :=
    newIn_here ⟨by decide, by decide, by decide, by decide, by decide⟩ (by decide) (by decide) (by decide +kernel)
      (by decide +kernel)
  exact (creation_right_iff emptyDisk .root (lit "a") (lit "a") 4 [] [] mkFile iOccupied .mkFile hchain (by decide +kernel)
    hnew (by decide) (by decide)).mpr fun h => h.2 0 (by decide +kernel) (by decide +kernel)

/-- An empty root directory on a disk where only zone 9 is free. -/
def lastZoneDisk : Store where
  map := ((setState (fun _ => 170) 4 dOccupied).bind (setState · 9 unoccupied)).getD .zero
  zones := fun _ => .zero

/-- The root directory lists four entries and one zone is free: `mk_file` succeeds, and the directory is lost. -/
theorem creation_last_zone : ¬∀ s pwd path name d es rest mk b, CreateCommand mk b → DirChain s d es rest →
    s.state d = some dOccupied → NewIn s pwd path d name → NulFree name → name.length ≤ 9 →
    wp drainSem (mk pwd path) (CreationRight s d b name) s := by
  intro hall
  have hdec : (addAll 4 (fiveEntries.take 4) lastZoneDisk).map (fun s => decide (s.state 4 = some dOccupied ∧
      (∀ i : Nat, i < 1024 → (4 ≤ i ∧ s.state i = some unoccupied ↔ i = 9)) ∧ (∀ i < 4, dentry.subId (s.zones 4) i ≠ 0) ∧
      dentry.next (s.zones 4) = 0 ∧ (storeMachine.exec (getPath .root (lit "e")) s).map (·.1.1) = some none)) =
      some true := by decide +kernel
  obtain ⟨s, hs, hstate, hfree, hslots, hlast, hnone⟩ := exists_of_decide hdec
  have hempty : Edited .unexhausted 4 lastZoneDisk :=
    .empty (by decide) ⟨dOccupied, by decide +kernel, by decide⟩ ⟨entries_blank, Bytes.int16_zero _⟩
  have hedited := hempty.addAll (by decide) hs
  obtain ⟨es, rest, hpacked⟩ := hedited.packed
  have hnew : NewIn s .root (lit "e") 4 (lit "e") := newIn_here ⟨by decide, by decide, by decide, by decide, by decide⟩
    (by decide) (by decide) hstate hnone
  refine (hpacked.create_iff .mkFile hnew hstate (by decide) (by decide)).mp
    (hall s .root (lit "e") (lit "e") 4 es rest mkFile iOccupied .mkFile hpacked.toDirChain hstate hnew (by decide)
    (by decide)) ⟨?_, ?_⟩
  · refine Finset.card_eq_one.mpr ⟨9, Finset.ext fun i => ?_⟩
    rw [Finset.mem_filter, Finset.mem_singleton, Finset.mem_range]
    constructor
    · exact fun h => (hfree i h.1).mp h.2
    · rintro rfl
      exact ⟨by decide, (hfree 9 (by decide)).mpr rfl⟩
  · have hzone : s.lastZone zoneFuel dentry 4 = (dentry, 4) := if_pos hlast
    unfold Store.TailFull
    rw [hzone]
    exact hslots

end MiniFs
