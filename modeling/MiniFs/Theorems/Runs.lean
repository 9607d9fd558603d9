import MiniFs.Theorems.Requests
import MiniFs.Theorems.Shape

/-! # Runs of the server

The states that the server is in between two requests, from a freshly formatted disk on. A run is looked at as long as
its requests are of some kind; the runs whose requests are safe keep the invariant. -/

namespace MiniFs
open Interact Memory

/-- No run that exhausts the bitmap, and none with a lookup that stops past the slots of a dentry. -/
def Policy.kept : Policy := ⟨true, true⟩

/-- What `format` leaves: the root is the only zone in use, and block 0 is zero. -/
structure Formatted (s : Store) : Prop where
  map : setState .zero 4 dOccupied = some s.map
  zones : ∀ id, 4 ≤ id → id < 8 → s.zones id = .zero

/-- The store and the working directory between two requests, all of which are as `Ok` says. -/
inductive Reached (P : Policy) (Ok : Store → PathT → List Str → Prop) : Store → PathT → Prop where
  | format {s : Store} (h : Formatted s) : Reached P Ok s .root
  | request {s : Store} {pwd : PathT} {req : Str} {s' : Store} {pwd' : PathT} {sent : List Msg} (h : Reached P Ok s pwd)
      (nul : NulFree req) (short : req.length < 127) (ok : Ok s pwd (toks req 6))
      (run : Runs (fsSem P) (interpret pwd (toks req 6)) (s, []) (some (some pwd', (s', sent)))) : Reached P Ok s' pwd'

/-- Any request. -/
def AnyRequest (_ : Store) (_ : PathT) (_ : List Str) : Prop := True

theorem toks_nulFree (str : Str) (size : Nat) : ∀ t ∈ toks str size, NulFree t := by
  intro t ht
  obtain ⟨pos, -, rfl⟩ := List.mem_map.mp ht
  intro c hc
  simpa using List.mem_takeWhile_imp hc

theorem length_getToksFrom {size pos len : Nat} {str : Str} {flag : Bool} :
    (getToksFrom size str pos flag len).1.length = str.length := by
  induction str generalizing pos len flag with
  | nil => cases flag <;> rfl
  | cons ch str ih =>
    cases flag with
    | false =>
      unfold getToksFrom
      split
      · exact congrArg Nat.succ ih
      split
      · rfl
      · exact congrArg Nat.succ ih
    | true =>
      unfold getToksFrom
      split
      · exact congrArg Nat.succ ih
      · exact congrArg Nat.succ ih

theorem toks_length (str : Str) (size : Nat) : ∀ t ∈ toks str size, t.length ≤ str.length := by
  intro t ht
  obtain ⟨pos, -, rfl⟩ := List.mem_map.mp ht
  have hlen : (getToks str size).1.length = str.length := length_getToksFrom
  have hle := (List.takeWhile_prefix (· != 0) (l := (getToks str size).1.drop pos)).length_le
  rw [List.length_drop] at hle
  omega

/-! ## The invariant of runs -/

/-- The image of a formatted disk. -/
def Image.start : Image := ⟨fun id => if id = 4 then some (.dir [] []) else none, fun _ => 0⟩

section
variable {P : Policy} {s : Store} {pwd : PathT}

theorem Formatted.state (h : Formatted s) (id : Int) :
    s.state id = if id = 4 then some dOccupied else if id < 4 then some fOccupied else if id < 1024 then some unoccupied
      else none := by
  obtain ⟨m, hm, hstate⟩ := @setState_spec 256 .zero 4 dOccupied (by omega) (by omega) isState_dOccupied
  have heq : m = s.map := Option.some.inj (hm.symm.trans h.map)
  have hs : s.state id = getState s.map id := rfl
  rw [hs, ← heq, hstate]
  by_cases h4 : id = 4
  · rw [if_pos h4, if_pos h4]
  rw [if_neg h4, if_neg h4]
  by_cases hlt : id < 4
  · rw [getState_of_lt hlt, if_pos hlt]
  rw [if_neg hlt]
  by_cases hlt' : id < 1024
  · rw [getState_of_le (by omega) (by omega), if_pos hlt', Bytes.get_zero]
    have hzero : ∀ o < 4, (0 : Byte) >>> UInt8.ofNat (2 * o) &&& 3 = unoccupied := by decide
    exact congrArg some (hzero _ (Nat.mod_lt _ (by omega)))
  · rw [getState_of_ge (by omega) (by omega), if_neg hlt']

theorem Formatted.inv (h : Formatted s) : Inv s .start := by
  have hnode : ∀ id n, Image.start.node id = some n → id = 4 ∧ n = .dir [] [] := by
    intro id n hn
    unfold Image.start at hn
    dsimp only at hn
    split at hn
    · rename_i hid
      exact ⟨hid, (Option.some.inj hn).symm⟩
    · cases hn
  have h4 : s.state 4 = some dOccupied := by rw [h.state, if_pos rfl]
  have hzero := h.zones 4 (by omega) (by omega)
  have hrep : ∀ id n, Image.start.node id = some n → n.Rep s id := by
    intro id n hn
    obtain ⟨rfl, rfl⟩ := hnode id n hn
    refine ⟨?_, ?_⟩
    · rw [hzero]
      exact entries_blank
    · rw [hzero]
      exact Bytes.int16_zero _
  refine ⟨⟨⟨_, rfl, rfl⟩, fun id n hn => ?_, fun id b hs hb => ?_, fun id n hn => (hrep id n hn).placed,
    fun id n hn z hz => ?_, fun id n hn => ?_, fun id id' n n' z hn hn' hz _ => ?_, fun d n e hn he => ?_,
    fun d n hn => ?_⟩, hrep, fun id n hn => ?_⟩
  · obtain ⟨rfl, rfl⟩ := hnode id n hn
    exact h4
  · rw [h.state] at hs
    by_cases hid : id = 4
    · exact ⟨_, if_pos hid⟩
    rw [if_neg hid] at hs
    split at hs
    · cases hs
      exact absurd hb (by decide)
    split at hs
    · cases hs
      exact absurd hb (by decide)
    · cases hs
  · obtain ⟨rfl, rfl⟩ := hnode id n hn
    cases hz
  · obtain ⟨rfl, rfl⟩ := hnode id n hn
    exact List.nodup_nil
  · obtain ⟨rfl, rfl⟩ := hnode id n hn
    cases hz
  · obtain ⟨rfl, rfl⟩ := hnode d n hn
    cases he
  · obtain ⟨rfl, rfl⟩ := hnode d n hn
    exact List.nodup_nil
  · obtain ⟨rfl, rfl⟩ := hnode id n hn
    rw [hzero]
    decide

/-- What holds at the start, is kept by every change by the rules and by `cd`, holds in every run of safe requests
    that follow the rules. -/
theorem Reached.keeps {r : PathT → Rules} {J : PathT → Store → Image → Prop} {Ok : Store → PathT → List Str → Prop}
    (h : Reached .kept Ok s pwd) (hsafe : ∀ s pwd toks, Ok s pwd toks → Safe s pwd toks)
    (hfollows : ∀ s g pwd toks, Inv s g → J pwd s g → (∀ t ∈ toks, NulFree t) → Ok s pwd toks → Follows (r pwd) s g pwd toks)
    (hstart : ∀ s, Formatted s → J .root s .start)
    (hstep : ∀ pwd s g s' g', Inv s g → J pwd s g → Change (r pwd) s g s' g' → Inv s' g' → J pwd s' g')
    (hcd : ∀ pwd s g path p, Inv s g → J pwd s g → NulFree path → (s.lookup pwd path).1 = some p →
      s.state p.id = some dOccupied → J p s g) : ∃ g, Inv s g ∧ J pwd s g ∧ pwd.Below := by
  induction h with
  | format h => exact ⟨.start, h.inv, hstart _ h, PathT.root_below⟩
  | @request s pwd req s' pwd' sent h nul short ok run ih =>
    obtain ⟨g, hinv, hJ, hpwd⟩ := ih
    have htoks := toks_nulFree req 6
    have hlens : ∀ t ∈ toks req 6, t.length < 2 ^ 15 := fun t ht => by
      have := toks_length req 6 t ht
      omega
    obtain ⟨⟨g', hch, hinv'⟩, hpwd'⟩ :=
      interpret_spec rfl rfl hinv hpwd htoks hlens (hsafe _ _ _ ok) (hfollows s g pwd _ hinv hJ htoks ok) _ _ run
    have hJ' := (hch.keeps hinv hJ (hstep pwd)).1
    dsimp only at hinv' hJ'
    rcases hpwd' pwd' rfl with rfl | ⟨hs, hdir, path, hpath, hp⟩
    · exact ⟨g', hinv', hJ', hpwd⟩
    · obtain rfl : s' = s := hs
      exact ⟨g', hinv', hcd pwd _ g' path pwd' hinv' hJ' hpath hp hdir, hinv.dirs.lookup_below hpwd hpath hp⟩

/-- The rules that allow all. -/
def Rules.any : Rules := ⟨fun _ _ => True, fun _ _ _ => True⟩

theorem Rules.any_follows {g : Image} {toks : List Str} : Follows .any s g pwd toks where
  insert := fun _ _ _ _ _ _ _ => trivial
  rm := fun _ _ _ _ _ _ => trivial
  rmdir := fun _ _ _ _ _ _ => trivial
  rewrite := fun _ _ _ _ _ _ => ⟨fun _ _ _ _ => trivial, fun _ _ _ _ _ _ _ _ => trivial⟩

theorem Reached.inv {Ok : Store → PathT → List Str → Prop} (h : Reached .kept Ok s pwd)
    (hsafe : ∀ s pwd toks, Ok s pwd toks → Safe s pwd toks) : ∃ g, Inv s g ∧ pwd.Below := by
  obtain ⟨g, hinv, -, hpwd⟩ := h.keeps (r := fun _ => .any) (J := fun _ _ _ => True) hsafe
    (fun _ _ _ _ _ _ _ _ => Rules.any_follows) (fun _ _ => trivial) (fun _ _ _ _ _ _ _ _ _ => trivial)
    fun _ _ _ _ _ _ _ _ _ _ => trivial
  exact ⟨g, hinv, hpwd⟩

end

/-! ## Running requests -/

/-- The requests one after the other, with the messages that are sent for each. -/
def answerAll : List Str → PathT → Store → Option (List (Str × List Msg) × PathT × Store)
  | [], pwd, s => some ([], pwd, s)
  | req :: reqs, pwd, s => match fsMachine.exec (interpret pwd (toks req 6)) (s, []) with
    | some (some pwd', (s', sent)) => (answerAll reqs pwd' s').map fun r => ((req, sent) :: r.1, r.2)
    | _ => none

def serveAll (reqs : List Str) (pwd : PathT) (s : Store) : Option (PathT × Store) := (answerAll reqs pwd s).map Prod.snd

/-- What each of the requests keeps holds after them. -/
theorem answerAll_keeps {P : Policy} {I : List (Str × List Msg) → PathT → Store → Prop} {reqs : List Str}
    {l l' : List (Str × List Msg)} {pwd pwd' : PathT} {s s' : Store}
    (hstep : ∀ log pwd s req sent pwd' s', req ∈ reqs → I log pwd s →
      Runs (fsSem P) (interpret pwd (toks req 6)) (s, []) (some (some pwd', (s', sent))) → I (log ++ [(req, sent)]) pwd' s')
    (h : I l pwd s) (hrun : answerAll reqs pwd s = some (l', pwd', s')) : I (l ++ l') pwd' s' := by
  induction reqs generalizing l l' pwd s with
  | nil =>
    cases hrun
    rwa [List.append_nil]
  | cons req reqs ih =>
    unfold answerAll at hrun
    split at hrun
    · rename_i pwd₁ s₁ sent hexec
      obtain ⟨⟨l₁, pwd₂, s₂⟩, hrest, heq⟩ := Option.map_eq_some_iff.mp hrun
      cases heq
      have hone := hstep l pwd s req sent pwd₁ s₁ List.mem_cons_self h ((fsMachine_of P).runs hexec)
      have hall := ih (fun log pwd s r sent pwd' s' hr => hstep log pwd s r sent pwd' s' (List.mem_cons_of_mem _ hr)) hone
        hrest
      rwa [List.append_assoc] at hall
    · cases hrun

theorem Reached.serveAll {P : Policy} {Ok : Store → PathT → List Str → Prop} {reqs : List Str} {s s' : Store}
    {pwd pwd' : PathT} (h : Reached P Ok s pwd) (hreqs : ∀ req ∈ reqs, NulFree req ∧ req.length < 127)
    (hok : ∀ req ∈ reqs, ∀ s pwd, Ok s pwd (toks req 6)) (hrun : MiniFs.serveAll reqs pwd s = some (pwd', s')) :
    Reached P Ok s' pwd' := by
  obtain ⟨⟨log, r⟩, hanswer, rfl⟩ := Option.map_eq_some_iff.mp hrun
  refine answerAll_keeps (P := P) (I := fun _ pwd s => Reached P Ok s pwd) (fun _ pwd s req sent pwd' s' hin hr run => ?_)
    (l := []) h hanswer
  exact hr.request (hreqs req hin).1 (hreqs req hin).2 (hok req hin s pwd) run

/-- Whether each of the requests passes the check in the state that it finds. -/
def passAll (check : Store → PathT → List Str → Bool) : List Str → PathT → Store → Bool
  | [], _, _ => true
  | req :: reqs, pwd, s => check s pwd (toks req 6) && match fsMachine.exec (interpret pwd (toks req 6)) (s, []) with
    | some (some pwd', (s', _)) => passAll check reqs pwd' s'
    | _ => true

theorem Reached.passAll {P : Policy} {Ok : Store → PathT → List Str → Prop} {check : Store → PathT → List Str → Bool}
    {reqs : List Str} {s s' : Store} {pwd pwd' : PathT} (h : Reached P Ok s pwd)
    (hreqs : ∀ req ∈ reqs, NulFree req ∧ req.length < 127) (hok : ∀ s pwd toks, check s pwd toks = true → Ok s pwd toks)
    (hpass : MiniFs.passAll check reqs pwd s = true) (hrun : MiniFs.serveAll reqs pwd s = some (pwd', s')) :
    Reached P Ok s' pwd' := by
  induction reqs generalizing s pwd with
  | nil =>
    cases hrun
    exact h
  | cons req reqs ih =>
    obtain ⟨hcheck, hrest⟩ := Bool.and_eq_true_iff.mp hpass
    unfold MiniFs.serveAll answerAll at hrun
    split at hrun
    · rename_i pwd₁ s₁ sent hexec
      rw [hexec] at hrest
      rw [Option.map_map] at hrun
      have hreq := hreqs req List.mem_cons_self
      exact ih (h.request hreq.1 hreq.2 (hok _ _ _ hcheck) ((fsMachine_of P).runs hexec))
        (fun r hr => hreqs r (List.mem_cons_of_mem _ hr)) hrest hrun
    · cases hrun

theorem emptyDisk_formatted : Formatted emptyDisk := ⟨rfl, fun _ _ _ => rfl⟩

/-- A request that neither removes nor writes is safe. -/
theorem safe_of_head {s : Store} {pwd : PathT} {toks : List Str}
    (h : ∀ w ∈ [lit "rm", lit "rmdir", lit "write"], toks.head? ≠ some w) : Safe s pwd toks := by
  have hne : ∀ {t : Str} {rest : List Str} (w : Str), toks = t :: rest → w ∈ [lit "rm", lit "rmdir", lit "write"] → t ≠ w :=
    fun w heq hw ht => h w hw (by rw [heq, ht]; rfl)
  match toks with
  | [t, a] => exact ⟨fun ht => absurd ht (hne _ rfl (by simp)), fun ht => absurd ht (hne _ rfl (by simp))⟩
  | [t, a, _] => exact fun ht => absurd ht (hne _ rfl (by simp))
  | [] | [_] | _ :: _ :: _ :: _ :: _ => trivial

theorem serveAll_reached {reqs : List Str} {s : Store} {pwd : PathT} (hreqs : ∀ req ∈ reqs, NulFree req ∧ req.length < 127)
    (hsafe : ∀ req ∈ reqs, ∀ w ∈ [lit "rm", lit "rmdir", lit "write"], (toks req 6).head? ≠ some w)
    (hrun : serveAll reqs .root emptyDisk = some (pwd, s)) : Reached .kept Safe s pwd :=
  .serveAll (.format emptyDisk_formatted) hreqs (fun req hreq _ _ => safe_of_head (hsafe req hreq)) hrun

/-! ## Two disks -/

/-- What the requests make of the disk that was just formatted. -/
def servedDisk (reqs : List Str) : Store := ((serveAll reqs .root emptyDisk).map Prod.snd).getD emptyDisk

theorem servedDisk_reached {reqs : List Str} (hreqs : ∀ req ∈ reqs, NulFree req ∧ req.length < 127)
    (hsafe : ∀ req ∈ reqs, ∀ w ∈ [lit "rm", lit "rmdir", lit "write"], (toks req 6).head? ≠ some w)
    (hrun : (serveAll reqs .root emptyDisk).map Prod.fst = some .root) : Reached .kept Safe (servedDisk reqs) .root := by
  obtain ⟨⟨pwd, s⟩, heq, rfl⟩ := Option.map_eq_some_iff.mp hrun
  have hs : servedDisk reqs = s := by
    unfold servedDisk
    rw [heq]
    rfl
  exact hs ▸ serveAll_reached hreqs hsafe heq

def sampleText : Str := lit "the-first-data-zone-takes-sixty-three-characters-and-the-rest-is-in-the-next"

/-- Requests for a file `a` with two data zones, a directory `d` with a file `x`, and a file `b` without data. -/
def sampleLines : List Str :=
  [lit "touch a", lit "append a " ++ sampleText, lit "mkdir d", lit "cd d", lit "touch x", lit "cd /", lit "touch b"]

def sampleDisk : Store := servedDisk sampleLines

theorem sampleDisk_reached : Reached .kept Safe sampleDisk .root :=
  servedDisk_reached (by decide +kernel) (by decide +kernel) (by decide +kernel)

/-- The same with two more files, for which the root directory needs a dir_zone. -/
def chainedDisk : Store := servedDisk (sampleLines ++ [lit "touch c", lit "touch e"])

/-! ## The shape of reached states -/

/-- In every run of safe requests the zones form a tree rooted at zone 4. -/
theorem shape_of_safe_run (s : Store) (pwd : PathT) (h : Reached .kept Safe s pwd) : Shape s := by
  obtain ⟨g, hinv, -⟩ := h.inv fun _ _ _ hok => hok
  exact hinv.shape

theorem shape_of_safe_run_mkdir : ∃ (s : Store) (pwd : PathT), pwd ≠ .root ∧ Shape s := by
  have hdec : ((serveAll [lit "mkdir d", lit "cd d"] .root emptyDisk).map fun r => r.1.id) = some 5 := by decide +kernel
  obtain ⟨⟨pwd, s⟩, heq, hid⟩ := Option.map_eq_some_iff.mp hdec
  refine ⟨s, pwd, fun h => ?_, shape_of_safe_run s pwd (serveAll_reached (by decide) (by decide) heq)⟩
  rw [h] at hid
  cases hid

/-- `rm /` frees the root. -/
theorem rm_root_shape : ¬∀ s pwd, Reached .all AnyRequest s pwd → Shape s := by
  intro hall
  have hrun : ∃ pwd s, serveAll [lit "rm /"] .root emptyDisk = some (pwd, s) ∧ s.state 4 ≠ some dOccupied := by
    have hdec : ((serveAll [lit "rm /"] .root emptyDisk).map fun r => r.2.state 4) =
      some (some unoccupied) := by decide +kernel
    obtain ⟨⟨pwd, s⟩, heq, hs⟩ := Option.map_eq_some_iff.mp hdec
    refine ⟨pwd, s, heq, ?_⟩
    rw [show s.state 4 = some unoccupied from hs]
    decide
  obtain ⟨pwd, s, heq, hne⟩ := hrun
  exact hne (hall s pwd (Reached.serveAll (.format emptyDisk_formatted) (by decide) (fun _ _ _ _ => trivial) heq)).root

end MiniFs
