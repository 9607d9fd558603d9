import MiniFs.Server
import MiniFs.Lib.Dialogue
import Mathlib.Data.Finset.Card
import Mathlib.Data.Finset.Range

/-! # The store

What the commands of the file server work on, seen through alloc.h: the bitmap and an array of zones. The
cache below it is left to `Theorems/Cache` and `Theorems/BlockStore`. The store of the source has a bitmap of 256 bytes;
the number of bytes is a parameter, for what is said of a disk that never runs out of zones. -/

namespace MiniFs
open Interact Memory

structure Store (n : Nat := 256) where
  map : Bitmap n
  zones : Int → Zone

namespace Store
variable {n : Nat}

/-- `get_state`, where the id is inside the bitmap. -/
def state (s : Store n) (id : Int) : Option Byte := getState s.map id

/-- The store after zone `id` is overwritten. -/
def write (s : Store n) (id : Int) (z : Zone) : Store n := { s with zones := fun i => if i = id then z else s.zones i }

/-- The number of free zones. -/
def free (s : Store n) : Nat := ((Finset.range (4 * n)).filter fun id : Nat => 4 ≤ id ∧ s.state id = some unoccupied).card

end Store

/-- The runs that are looked at. With `room`, those in which no `get_free_id` exhausts the bitmap: with no
    free zone left it reads on past the end of the bitmap. With `slots`, those in which no scan of
    `get_sub_path` stops past the four slots of the dentry, on a name made of the bytes that follow them. -/
structure Policy where
  room : Bool
  slots : Bool

/-- What lies above a local `dentry_t` does not make the scan for `name` stop past its slots. -/
def InSlots (pDir : Zone) (name : Str) (above : Nat → Byte) : Prop :=
  ∀ idx, scanSubs (frame pDir above) name 10 0 = some idx → idx < dentry.subs

/-- The operations of the file server on a store. The clock shows any `time_t` that is not negative. -/
def storeOp {n : Nat} (P : Policy) : (e : FsOp) → Store n → Option (e.Ans × Store n) → Prop
  | .getState id, s, o => o = (s.state id).map fun b => (b, s)
  | .getFreeId b, s, o => o = (getFreeId s.map b).map (fun p => (p.1, { s with map := p.2 })) ∧ (P.room = true → o ≠ none)
  | .setFreeId id, s, o => o = (setFreeId s.map id).map fun m => ((), { s with map := m })
  | .readZone id, s, o => o = some (if id < 4 then none else some (s.zones id), s)
  | .writeZone id z, s, o => o = some ((), if id < 4 then s else s.write id z)
  | .time, s, o => ∃ t : UInt64, t.toNat < 2 ^ 63 ∧ o = some (t, s)
  | .stack pDir name, s, o => ∃ above, (P.slots = true → InSlots pDir name above) ∧ o = some (above, s)
  | .unset, s, o => ∃ v : Int, o = some (v, s)

/-- The store without a client: a use of the socket is undefined. -/
def storeSem {n : Nat} (P : Policy) : Sem fsSig (Store n) where
  op := storeOp P
  write _ _ o := o = none
  read _ _ o := o = none

/-- The store with a client that takes every message and sends any strings. The messages that the client has
    taken are kept. -/
def fsSem {n : Nat} (P : Policy) : Sem fsSig (Store n × List Msg) where
  op e t o := ∃ o', storeOp P e t.1 o' ∧ o = o'.map fun p => (p.1, (p.2, t.2))
  write m t o := o = some (t.1, t.2 ++ [m])
  read n t o := ∃ str, NulFree str ∧ str.length < n ∧ o = some (packet str, t)

/-- A zone is free when it is asked for, or the runs that exhaust the bitmap are left out. -/
def Store.Room {n : Nat} (P : Policy) (k : Nat) (s : Store n) : Prop := P.room = true ∨ k ≤ s.free

section
variable {n : Nat} {P : Policy} {α : Type} {s : Store n}

/-- What a program does without the socket, it does beside any client. -/
theorem wp_fsSem {p : FsM α} {Q : α → Store n → Prop} {log : List Msg} (h : wp (storeSem P) p Q s) :
    wp (fsSem P) p (fun a t => t.2 = log ∧ Q a t.1) (s, log) :=
  have hl : (storeSem (n := n) P).Lift (fsSem P) := ⟨fun _ _ _ => Or.inr fun _ h => h, fun _ _ => rfl, fun _ _ => rfl⟩
  wp_lift hl h

theorem wp_talk {p : FsM α} {Q : α → Store n → Prop} {A : Session} (h : wp (storeSem P) p Q s) :
    wp (storeSem P).talk p (fun a u => u.2 = A ∧ Q a u.1) (s, A) :=
  have hl : (storeSem (n := n) P).Lift (storeSem P).talk := ⟨fun _ _ _ => Or.inr fun _ h => h, fun _ _ => rfl, fun _ _ => rfl⟩
  wp_lift hl h

/-! ## The operations -/

theorem getState_spec {id : Int} {b : Byte} {Q : Byte → Store n → Prop} (hs : s.state id = some b) (h : Q b s) :
    wp (storeSem P) (Fs.getState id) Q s := by
  refine (wp_op_eq fun o => ?_).mpr (wp_ret.mpr h)
  show o = (s.state id).map _ ↔ _
  rw [hs]
  rfl

theorem readZone_spec {id : Int} {Q : Option Zone → Store n → Prop} (hid : 4 ≤ id) (h : Q (some (s.zones id)) s) :
    wp (storeSem P) (Fs.readZone id) Q s := by
  refine (wp_op_eq fun o => ?_).mpr (wp_ret.mpr h)
  show o = some (if id < 4 then none else some (s.zones id), s) ↔ _
  rw [if_neg (by omega)]
  rfl

theorem readZone_null {id : Int} {Q : Option Zone → Store n → Prop} (hid : id < 4) (h : Q none s) :
    wp (storeSem P) (Fs.readZone id) Q s := by
  refine (wp_op_eq fun o => ?_).mpr (wp_ret.mpr h)
  show o = some (if id < 4 then none else some (s.zones id), s) ↔ _
  rw [if_pos hid]
  rfl

theorem writeZone_spec {id : Int} {z : Zone} {Q : Unit → Store n → Prop} (hid : 4 ≤ id) (h : Q () (s.write id z)) :
    wp (storeSem P) (Fs.writeZone id z) Q s := by
  refine (wp_op_eq fun o => ?_).mpr (wp_ret.mpr h)
  show o = some ((), if id < 4 then s else s.write id z) ↔ _
  rw [if_neg (by omega)]
  rfl

theorem writeZone_null {id : Int} {z : Zone} {Q : Unit → Store n → Prop} (hid : id < 4) (h : Q () s) :
    wp (storeSem P) (Fs.writeZone id z) Q s := by
  refine (wp_op_eq fun o => ?_).mpr (wp_ret.mpr h)
  show o = some ((), if id < 4 then s else s.write id z) ↔ _
  rw [if_pos hid]
  rfl

theorem time_spec {Q : UInt64 → Store n → Prop} (h : ∀ t : UInt64, t.toNat < 2 ^ 63 → Q t s) :
    wp (storeSem P) Fs.time Q s := by
  refine wp_op.mpr ?_
  rintro o ⟨t, ht, rfl⟩
  exact ⟨t, s, rfl, wp_ret.mpr (h t ht)⟩

theorem stack_spec {pDir : Zone} {name : Str} {Q : (Nat → Byte) → Store n → Prop}
    (h : ∀ above, (P.slots = true → InSlots pDir name above) → Q above s) :
    wp (storeSem P) (Fs.stack pDir name) Q s := by
  refine wp_op.mpr ?_
  rintro o ⟨above, ha, rfl⟩
  exact ⟨above, s, rfl, wp_ret.mpr (h above ha)⟩

theorem may_readZone {id : Int} {Q : Option Zone → Store n → Prop} (hid : 4 ≤ id) (h : Q (some (s.zones id)) s) :
    may (storeSem P) (Fs.readZone id) Q s := by
  refine may_op (r := some (s.zones id)) ?_ (may_ret h)
  show some _ = some (if id < 4 then none else some (s.zones id), s)
  rw [if_neg (by omega)]
  rfl

theorem may_writeZone {id : Int} {z : Zone} {Q : Unit → Store n → Prop} (hid : 4 ≤ id) (h : Q () (s.write id z)) :
    may (storeSem P) (Fs.writeZone id z) Q s := by
  refine may_op (r := ()) ?_ (may_ret h)
  show some _ = some ((), if id < 4 then s else s.write id z)
  rw [if_neg (by omega)]
  rfl

theorem may_unset {Q : Int → Store n → Prop} (v : Int) (h : Q v s) : may (storeSem P) Fs.unset Q s :=
  may_op (r := v) ⟨v, rfl⟩ (may_ret h)

end

/-! ## Running on a store -/

/-- Every operation has an outcome when the runs are not restricted. -/
theorem storeSem_total {n : Nat} {P : Policy} (hroom : P.room = false) (hslots : P.slots = false) :
    (storeSem (n := n) P).Total := by
  intro e s
  cases e with
  | getState id => exact ⟨_, rfl⟩
  | getFreeId b => exact ⟨_, rfl, fun h => absurd (hroom.symm.trans h) Bool.false_ne_true⟩
  | setFreeId id => exact ⟨_, rfl⟩
  | readZone id => exact ⟨_, rfl⟩
  | writeZone id z => exact ⟨_, rfl⟩
  | time => exact ⟨_, 0, by decide, rfl⟩
  | stack pDir name => exact ⟨_, fun _ => 0, fun h => absurd (hslots.symm.trans h) Bool.false_ne_true, rfl⟩
  | unset => exact ⟨_, 0, rfl⟩

/-- A machine on which the clock shows 0 and the memory above a dentry is zero. -/
def storeMachine : Machine fsSig Store where
  op e s := match e with
    | .getState id => (s.state id).map fun b => (b, s)
    | .getFreeId b => (getFreeId s.map b).map fun p => (p.1, { s with map := p.2 })
    | .setFreeId id => (setFreeId s.map id).map fun m => ((), { s with map := m })
    | .readZone id => some (if id < 4 then none else some (s.zones id), s)
    | .writeZone id z => some ((), if id < 4 then s else s.write id z)
    | .time => some ((0 : UInt64), s)
    | .stack pDir name => match scanSubs (frame pDir fun _ => 0) name 10 0 with
      | none => some (fun _ => 0, s)
      | some idx => if idx < dentry.subs then some (fun _ => 0, s) else none
    | .unset => some ((0 : Int), s)
  write _ _ := none
  read _ _ := none

theorem storeMachine_of (P : Policy) : storeMachine.Of (storeSem P) where
  op := by
    rintro e s p hp
    cases e with
    | getState id => exact hp.symm
    | getFreeId b =>
      have hp : (getFreeId s.map b).map _ = some p := hp
      exact ⟨hp.symm, fun _ => Option.some_ne_none p⟩
    | setFreeId id => exact hp.symm
    | readZone id => exact hp.symm
    | writeZone id z => exact hp.symm
    | time =>
      cases hp
      exact ⟨0, by decide, rfl⟩
    | stack pDir name =>
      refine ⟨fun _ => 0, fun _ idx hidx => ?_, ?_⟩
      · simp only [storeMachine, hidx] at hp
        split at hp
        · assumption
        · cases hp
      · simp only [storeMachine] at hp
        split at hp
        · exact hp.symm
        · split at hp
          · exact hp.symm
          · cases hp
    | unset =>
      cases hp
      exact ⟨0, rfl⟩
  write := fun _ _ _ hp => nomatch hp
  read := fun _ _ _ hp => nomatch hp

/-- What a client says next that lets the server list: it acknowledges the status and expects each record. -/
def nextReply (sent : List Msg) : Str := if sent = [packet (lit "2")] then lit "ACK" else lit "EXPECT"

theorem nextReply_nulFree (sent : List Msg) : NulFree (nextReply sent) := by
  unfold nextReply
  split
  · decide
  · decide

/-- The machine of the store with a client that takes every message and goes along with a listing. -/
def fsMachine : Machine fsSig (Store × List Msg) where
  op e t := (storeMachine.op e t.1).map fun p => (p.1, (p.2, t.2))
  write m t := some (t.1, t.2 ++ [m])
  read n t := if (nextReply t.2).length < n then some (packet (nextReply t.2), t) else none

theorem fsMachine_of (P : Policy) : fsMachine.Of (fsSem P) where
  op := fun e t p hp => by
    obtain ⟨q, hq, rfl⟩ := Option.map_eq_some_iff.mp hp
    exact ⟨some q, (storeMachine_of P).op e t.1 q hq, rfl⟩
  write := fun m t t' hp => hp.symm
  read := fun n t p hp => by
    obtain ⟨hlt, heq⟩ := Option.ite_none_right_eq_some.mp hp
    exact ⟨nextReply t.2, nextReply_nulFree t.2, hlt, heq.symm⟩

/-- A formatted disk. -/
def emptyDisk : Store := ⟨(setState .zero 4 dOccupied).getD .zero, fun _ => .zero⟩

end MiniFs
