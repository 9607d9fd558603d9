import MiniFs.Theorems.CatCount
import MiniFs.Theorems.Exhaustion
import Mathlib.Order.Interval.Finset.Nat

/-! # The capacity of a file

The README gives 136447 characters as the longest file. Appending puts 63 characters and a terminator into each of the
2132 data zones that an inode refers to; what a sequence of calls appends beyond them is lost. -/

namespace MiniFs
open Interact Memory FileTree

/-- Calls of `append` on one path, one after the other. -/
def appendAll (pwd : PathT) (path : Str) : List Str → FsM Unit
  | [] => .ret ()
  | str :: strs => do
    let _ ← append pwd path str
    appendAll pwd path strs

/-- The file holds the characters: `cat_file` visits data zones that are the characters in order. -/
def Stored {nb : Nat} (s : Store nb) (id : Int) (chars : Str) : Prop :=
  ∃ kids : List Kid, FileRep s id kids ∧ (dataZones kids).flatten = chars ∧
    wp (storeSem .all).talk (catFile id) (fun _ u => u = (s, .done)) (s, exchanges ((dataZones kids).map IsText) .done)

/-! ## More characters take more zones -/

namespace FileTree

theorem needNew_mono {n m x y : Nat} {below : Nat → Nat} (hbelow : ∀ x y, x ≤ y → below x ≤ below y) (h : x ≤ y) :
    needNew n below m x ≤ needNew n below m y := by
  induction m generalizing x y with
  | zero => exact Nat.le_refl 0
  | succ m ih =>
    by_cases hx : x = 0
    · rw [hx, needNew_zero]
      exact Nat.zero_le _
    · have hrest := @ih (x - cap n) (y - cap n) (by omega)
      have := hbelow x y h
      rw [needNew_succ hx, needNew_succ (by omega)]
      omega

theorem needBelow_mono (n : Nat) : ∀ x y, x ≤ y → needBelow n x ≤ needBelow n y := by
  induction n with
  | zero => exact fun _ _ _ => Nat.le_refl 0
  | succ n ih => exact fun _ _ h => needNew_mono ih h

theorem needFrom_mono {lvl : Nat → Nat} {m i x y : Nat} (h : x ≤ y) : needFrom lvl m i x ≤ needFrom lvl m i y := by
  induction m generalizing i x y with
  | zero => exact Nat.le_refl 0
  | succ m ih =>
    by_cases hx : x = 0
    · rw [hx, needFrom_zero]
      exact Nat.zero_le _
    · have hrest := @ih (i + 1) (x - cap (lvl i)) (y - cap (lvl i)) (by omega)
      have := needBelow_mono (lvl i) x y h
      rw [needFrom_succ hx, needFrom_succ (by omega)]
      omega

end FileTree

/-! ## Looking up a path in another store -/

section
variable {nb : Nat} {P : Policy} {s t : Store nb}

theorem wp_getState {id : Int} {Q : Byte → Store nb → Prop} :
    wp (storeSem P) (Fs.getState id) Q s ↔ ∃ b, s.state id = some b ∧ Q b s := by
  refine ⟨fun h => ?_, fun ⟨b, hb, h⟩ => getState_spec hb h⟩
  obtain ⟨b, s', heq, hQ⟩ := wp_op.mp h _ rfl
  obtain ⟨b', hb, hpair⟩ := Option.map_eq_some_iff.mp heq
  cases hpair
  exact ⟨b, hb, wp_ret.mp hQ⟩

theorem wp_readZone {id : Int} {Q : Option Zone → Store nb → Prop} (hid : 4 ≤ id) :
    wp (storeSem P) (Fs.readZone id) Q s ↔ Q (some (s.zones id)) s := by
  refine ⟨fun h => ?_, readZone_spec hid⟩
  obtain ⟨z, s', heq, hQ⟩ := wp_op.mp h _ rfl
  rw [if_neg (by omega)] at heq
  cases heq
  exact wp_ret.mp hQ

theorem wp_stack {pDir : Zone} {name : Str} {Q : (Nat → Byte) → Store nb → Prop} :
    wp (storeSem P) (Fs.stack pDir name) Q s ↔ ∀ above, (P.slots = true → InSlots pDir name above) → Q above s := by
  refine ⟨fun h above ha => ?_, stack_spec⟩
  obtain ⟨above', s', heq, hQ⟩ := wp_op.mp h _ ⟨above, ha, rfl⟩
  cases heq
  exact wp_ret.mp hQ

/-- A directory of `s` is the same directory in `t`, and what is none in `s` is none in `t`. -/
structure SameDirs {nb : Nat} (s t : Store nb) : Prop where
  dir : ∀ id, s.state id = some dOccupied → t.state id = some dOccupied ∧ t.zones id = s.zones id
  other : ∀ id b, s.state id = some b → b ≠ dOccupied → ∃ b', t.state id = some b' ∧ b' ≠ dOccupied

namespace SameDirs

theorem getSubPath (h : SameDirs s t) {parent : PathT} {name : Str} {R : Option PathT → Prop}
    (hdir : s.state parent.id = some dOccupied) (hp : wp (storeSem P) (getSubPath parent name) (fun r u => u = s → R r) s) :
    wp (storeSem P) (MiniFs.getSubPath parent name) (fun r u => u = t ∧ R r) t := by
  have h4 := Store.le_of_state hdir (by decide)
  have hs := wp_bind.mp hp
  rw [wp_readZone h4] at hs
  refine wp_bind.mpr ((wp_readZone h4).mpr (wp_bind.mpr (wp_stack.mpr fun above ha => ?_)))
  rw [(h.dir _ hdir).2] at ha ⊢
  have hs' := wp_stack.mp (wp_bind.mp hs) above ha
  dsimp only at hs' ⊢
  cases hscan : scanSubs (frame (s.zones parent.id) above) name 10 0 with
  | none =>
    rw [hscan] at hs'
    exact wp_ret.mpr ⟨rfl, wp_ret.mp hs' rfl⟩
  | some idx =>
    rw [hscan] at hs'
    dsimp only at hs' ⊢
    by_cases hlen : 2 + name.length + 1 ≤ 16
    · rw [if_pos hlen] at hs' ⊢
      exact wp_ret.mpr ⟨rfl, wp_ret.mp hs' rfl⟩
    · rw [if_neg hlen] at hs'
      exact (wp_fault.mp hs').elim

theorem getPathFromRoot (h : SameDirs s t) {fuel : Nat} {curr : PathT} {path : Str} {R : Option PathT × Str → Prop}
    (hp : wp (storeSem P) (getPathFromRoot fuel curr path) (fun r u => u = s → R r) s) :
    wp (storeSem P) (MiniFs.getPathFromRoot fuel curr path) (fun r u => u = t ∧ R r) t := by
  induction fuel generalizing curr path R with
  | zero => exact (wp_fault.mp hp).elim
  | succ fuel ih =>
    unfold MiniFs.getPathFromRoot at hp ⊢
    by_cases hdot : path = [] ∨ path = lit "."
    · rw [if_pos hdot] at hp ⊢
      exact wp_ret.mpr ⟨rfl, wp_ret.mp hp rfl⟩
    rw [if_neg hdot] at hp ⊢
    by_cases hdots : path = lit ".."
    · rw [if_pos hdots] at hp ⊢
      exact wp_ret.mpr ⟨rfl, wp_ret.mp hp rfl⟩
    rw [if_neg hdots] at hp ⊢
    by_cases hhere : path.take 2 = lit "./"
    · rw [if_pos hhere] at hp ⊢
      refine wp_seq (ih (R := fun r => R (r.1, path.take 2 ++ r.2)) (wp_mono (wp_bind.mp hp) ?_)) ?_
      · rintro ⟨r, rest⟩ u hr hu
        exact wp_ret.mp hr hu
      · rintro ⟨r, rest⟩ u ⟨rfl, hr⟩
        exact wp_ret.mpr ⟨rfl, hr⟩
    rw [if_neg hhere] at hp ⊢
    by_cases hup : path.take 3 = lit "../"
    · rw [if_pos hup] at hp ⊢
      cases hprev : curr.prev with
      | none =>
        rw [hprev] at hp
        exact wp_ret.mpr ⟨rfl, wp_ret.mp hp rfl⟩
      | some prev =>
        rw [hprev] at hp
        refine wp_seq (ih (R := fun r => R (r.1, path.take 3 ++ r.2)) (wp_mono (wp_bind.mp hp) ?_)) ?_
        · rintro ⟨r, rest⟩ u hr hu
          exact wp_ret.mp hr hu
        · rintro ⟨r, rest⟩ u ⟨rfl, hr⟩
          exact wp_ret.mpr ⟨rfl, hr⟩
    rw [if_neg hup] at hp ⊢
    obtain ⟨b, hb, hrest⟩ := wp_getState.mp (wp_bind.mp hp)
    by_cases hdir : b = dOccupied
    · subst hdir
      rw [if_neg (not_not.mpr rfl)] at hrest
      refine wp_bind.mpr (getState_spec (h.dir _ hb).1 ?_)
      rw [if_neg (not_not.mpr rfl)]
      refine wp_seq (h.getSubPath hb (wp_mono (wp_bind.mp hrest) fun o u ho hu => hu ▸ ho)) ?_
      rintro o u ⟨rfl, ho⟩
      cases o with
      | none => exact wp_ret.mpr ⟨rfl, wp_ret.mp ho rfl⟩
      | some sub =>
        dsimp only at ho ⊢
        by_cases hmore : (path.takeWhile (· ≠ slash)).length < path.length
        · rw [if_pos hmore] at ho ⊢
          refine wp_seq (ih (R := fun r => R (r.1, path.takeWhile (· ≠ slash))) (wp_mono (wp_bind.mp ho) ?_)) ?_
          · rintro ⟨r, rest⟩ u hr hu
            exact wp_ret.mp hr hu
          · rintro ⟨r, rest⟩ u ⟨rfl, hr⟩
            exact wp_ret.mpr ⟨rfl, hr⟩
        · rw [if_neg hmore] at ho ⊢
          exact wp_ret.mpr ⟨rfl, wp_ret.mp ho rfl⟩
    · rw [if_pos hdir] at hrest
      obtain ⟨b', hb', hne⟩ := h.other _ _ hb hdir
      refine wp_bind.mpr (getState_spec hb' ?_)
      rw [if_pos hne]
      exact wp_ret.mpr ⟨rfl, wp_ret.mp hrest rfl⟩

theorem getPathFromPwd (h : SameDirs s t) {fuel : Nat} {curr : PathT} {path : Str} {R : Option PathT × Str → Prop}
    (hp : wp (storeSem P) (getPathFromPwd fuel curr path) (fun r u => u = s → R r) s) :
    wp (storeSem P) (MiniFs.getPathFromPwd fuel curr path) (fun r u => u = t ∧ R r) t := by
  induction fuel generalizing curr path R with
  | zero => exact (wp_fault.mp hp).elim
  | succ fuel ih =>
    unfold MiniFs.getPathFromPwd at hp ⊢
    by_cases hdot : path = [] ∨ path = lit "."
    · rw [if_pos hdot] at hp ⊢
      exact wp_ret.mpr ⟨rfl, wp_ret.mp hp rfl⟩
    rw [if_neg hdot] at hp ⊢
    by_cases hdots : path = lit ".."
    · rw [if_pos hdots] at hp ⊢
      exact wp_ret.mpr ⟨rfl, wp_ret.mp hp rfl⟩
    rw [if_neg hdots] at hp ⊢
    by_cases hhere : path.take 2 = lit "./"
    · rw [if_pos hhere] at hp ⊢
      refine wp_seq (ih (R := fun r => R (r.1, path.take 2 ++ r.2)) (wp_mono (wp_bind.mp hp) ?_)) ?_
      · rintro ⟨r, rest⟩ u hr hu
        exact wp_ret.mp hr hu
      · rintro ⟨r, rest⟩ u ⟨rfl, hr⟩
        exact wp_ret.mpr ⟨rfl, hr⟩
    rw [if_neg hhere] at hp ⊢
    by_cases hup : path.take 3 = lit "../"
    · rw [if_pos hup] at hp ⊢
      cases hprev : curr.prev with
      | none =>
        rw [hprev] at hp
        exact wp_ret.mpr ⟨rfl, wp_ret.mp hp rfl⟩
      | some prev =>
        rw [hprev] at hp
        refine wp_seq (h.getPathFromRoot (R := fun r => R (r.1, path.take 3 ++ r.2)) (wp_mono (wp_bind.mp hp) ?_)) ?_
        · rintro ⟨r, rest⟩ u hr hu
          exact wp_ret.mp hr hu
        · rintro ⟨r, rest⟩ u ⟨rfl, hr⟩
          exact wp_ret.mpr ⟨rfl, hr⟩
    rw [if_neg hup] at hp ⊢
    obtain ⟨b, hb, hrest⟩ := wp_getState.mp (wp_bind.mp hp)
    by_cases hdir : b = dOccupied
    · subst hdir
      rw [if_neg (not_not.mpr rfl)] at hrest
      refine wp_bind.mpr (getState_spec (h.dir _ hb).1 ?_)
      rw [if_neg (not_not.mpr rfl)]
      exact h.getPathFromRoot hrest
    · rw [if_pos hdir] at hrest
      obtain ⟨b', hb', hne⟩ := h.other _ _ hb hdir
      refine wp_bind.mpr (getState_spec hb' ?_)
      rw [if_pos hne]
      exact wp_ret.mpr ⟨rfl, wp_ret.mp hrest rfl⟩

/-- `get_path` finds in `t` what it finds in `s`. -/
theorem getPath (h : SameDirs s t) {pwd : PathT} {path : Str} {R : Option PathT × Str → Prop}
    (hp : wp (storeSem P) (getPath pwd path) (fun r u => u = s → R r) s) :
    wp (storeSem P) (MiniFs.getPath pwd path) (fun r u => u = t ∧ R r) t := by
  unfold MiniFs.getPath at hp ⊢
  cases path with
  | nil => exact h.getPathFromPwd hp
  | cons c rest =>
    dsimp only at hp ⊢
    by_cases hc : c = slash
    · rw [if_pos hc] at hp ⊢
      refine wp_seq (h.getPathFromRoot (R := fun r => R (r.1, slash :: r.2)) (wp_mono (wp_bind.mp hp) ?_)) ?_
      · rintro ⟨r, rest'⟩ u hr hu
        exact wp_ret.mp hr hu
      · rintro ⟨r, rest'⟩ u ⟨rfl, hr⟩
        exact wp_ret.mpr ⟨rfl, hr⟩
    · rw [if_neg hc] at hp ⊢
      exact h.getPathFromPwd hp

end SameDirs

/-- Appending changes no directory. -/
theorem Appended.sameDirs {id : Int} {kids kids' : List Kid} {str : Str} {len : Nat} {new : List Int}
    (h : Appended s id kids str len t kids' new) (hid : s.state id = some iOccupied)
    (hdata : ∀ z ∈ kids.flatMap (·.2.ids), s.state z = some fOccupied) : SameDirs s t where
  dir z hz := by
    have hused : s.Used z := ⟨_, hz, by decide⟩
    refine ⟨(h.takes.keeps hused).trans hz, h.frame z (fun hmem => ?_) (h.takes.not_mem hused)⟩
    unfold filePath at hmem
    rcases List.mem_cons.mp hmem with rfl | hmem
    · rw [hid] at hz
      exact absurd (Option.some.inj hz) (by decide)
    · cases hlast : kids.getLast? with
      | none =>
        rw [hlast] at hmem
        exact absurd hmem List.not_mem_nil
      | some k =>
        rw [hlast] at hmem
        have hstate := hdata z (mem_ids_row (List.mem_of_getLast? hlast) (lastPath_subset z hmem))
        rw [hstate] at hz
        exact absurd (Option.some.inj hz) (by decide)
  other z b hz hb := by
    rw [h.takes.state]
    by_cases hmem : z ∈ new
    · exact ⟨fOccupied, if_pos hmem, by decide⟩
    · exact ⟨b, (if_neg hmem).trans hz, hb⟩

end

/-! ## A sequence of calls -/

/-- The characters that a file can hold. -/
def capacity : Nat := 63 * 2132

theorem take_concat {α : Type} {c u v : List α} {room cap : Nat} (h : c.length + room = cap) :
    (c ++ u.take (min u.length room) ++ v).take cap = (c ++ (u ++ v)).take cap := by
  by_cases hle : u.length ≤ room
  · rw [Nat.min_eq_left hle, List.take_length, List.append_assoc]
  · have hlen : (c ++ u.take room).length = cap := by
      rw [List.length_append, List.length_take]
      omega
    rw [Nat.min_eq_right (by omega), List.take_left' hlen, ← h, List.take_length_add_append,
      List.take_append_of_le_length (by omega)]

section
variable {nb : Nat} [Sized nb] {s : Store nb} {pwd : PathT} {path : Str} {id : Int} {kids : List Kid} {strs : List Str}

/-- A call of `append` on a file whose zones are all data zones and index zones. -/
theorem append_step {str : Str}
    (hpath : wp (storeSem .all) (getPath pwd path) (fun r t => t = s ∧ ∃ p, r.1 = some p ∧ p.id = id) s)
    (hstate : s.state id = some iOccupied) (hfile : FileRep s id kids)
    (hdata : ∀ z ∈ kids.flatMap (·.2.ids), s.state z = some fOccupied) (hne : str ≠ []) (hnul : NulFree str)
    (hshort : str.length < 2 ^ 15) (hroom : fileNeed kids str.length ≤ s.free) :
    wp (storeSem .all) (append pwd path str)
      (fun _ t => wp (storeSem .all) (getPath pwd path) (fun r u => u = t ∧ ∃ p, r.1 = some p ∧ p.id = id) t ∧
        t.state id = some iOccupied ∧ ∃ kids' : List Kid, FileRep t id kids' ∧
          (∀ z ∈ kids'.flatMap (·.2.ids), t.state z = some fOccupied) ∧
          content kids' = content kids ++ str.take (min str.length (fileRoom kids)) ∧
          (kids'.flatMap (·.2.ids)).length + t.free = (kids.flatMap (·.2.ids)).length + s.free) s := by
  have hused : s.Used id := ⟨_, hstate, by decide⟩
  refine append_eq hpath hstate hne ?_
  refine wp_mono (appendTo_spec (k := 0) (Store.le_of_state hstate (by decide)) hused hfile hne hnul hshort (Or.inr hroom)) ?_
  rintro - t ⟨len, kids', new, happ, -⟩
  refine ⟨(happ.sameDirs hstate hdata).getPath (wp_mono hpath fun r u h _ => h.2),
    (happ.takes.keeps hused).trans hstate, kids',
    happ.file, fun z hz => ?_, ?_, ?_⟩
  · rw [happ.takes.state]
    rcases List.mem_append.mp (happ.ids.mem_iff.mp hz) with hz | hz
    · by_cases hnew : z ∈ new
      · exact if_pos hnew
      · exact (if_neg hnew).trans (hdata z hz)
    · exact if_pos hz
  · have htext := happ.text
    rwa [happ.len_eq] at htext
  · have hlen := happ.ids.length_eq
    have hfree := happ.takes.free_add
    rw [List.length_append] at hlen
    omega

/-- The file takes the strings in order, as far as it can hold them. -/
theorem appendAll_spec {total : Nat}
    (hpath : wp (storeSem .all) (getPath pwd path) (fun r t => t = s ∧ ∃ p, r.1 = some p ∧ p.id = id) s)
    (hstate : s.state id = some iOccupied) (hfile : FileRep s id kids)
    (hdata : ∀ z ∈ kids.flatMap (·.2.ids), s.state z = some fOccupied)
    (hstrs : ∀ str ∈ strs, str ≠ [] ∧ NulFree str ∧ str.length < 2 ^ 15)
    (htotal : (content kids).length + strs.flatten.length ≤ total)
    (hfree : needFrom ptrLevel 24 0 total ≤ (kids.flatMap (·.2.ids)).length + s.free) :
    wp (storeSem .all) (appendAll pwd path strs)
      (fun _ t => t.state id = some iOccupied ∧
        ∃ kids' : List Kid, FileRep t id kids' ∧ content kids' = (content kids ++ strs.flatten).take capacity) s := by
  induction strs generalizing s kids with
  | nil =>
    refine wp_ret.mpr ⟨hstate, kids, hfile, ?_⟩
    have hroom := hfile.text_add_room
    rw [List.flatten_nil, List.append_nil, List.take_of_length_le]
    unfold content capacity
    omega
  | cons str strs ih =>
    obtain ⟨hne, hnul, hshort⟩ := hstrs str List.mem_cons_self
    have hneed := hfile.ids_add_need (List.length_pos_of_ne_nil hne)
    have hmono := @needFrom_mono ptrLevel 24 0 ((content kids).length + str.length) total
      (by rw [List.flatten_cons, List.length_append] at htotal; omega)
    refine wp_seq (append_step hpath hstate hfile hdata hne hnul hshort (by omega)) ?_
    rintro - t ⟨hpath', hstate', kids', hfile', hdata', htext, hsum⟩
    have hroom := hfile.text_add_room
    refine wp_mono (ih hpath' hstate' hfile' hdata' (fun str hs => hstrs str (List.mem_cons_of_mem _ hs)) ?_ (by omega)) ?_
    · have hle : (content kids').length ≤ (content kids).length + str.length := by
        rw [htext, List.length_append, List.length_take]
        omega
      rw [List.flatten_cons, List.length_append] at htotal
      omega
    · rintro - u ⟨hstate'', kids'', hfile'', htext'⟩
      exact ⟨hstate'', kids'', hfile'', by rw [htext', htext, List.flatten_cons]; exact take_concat hroom⟩

theorem stored_iff (hpath : wp (storeSem .all) (getPath pwd path) (fun r t => t = s ∧ ∃ p, r.1 = some p ∧ p.id = id) s)
    (hstate : s.state id = some iOccupied) (hempty : ∀ i < 24, (s.zones id).ptr i = 0)
    (hstrs : ∀ str ∈ strs, str ≠ [] ∧ NulFree str ∧ str.length < 2 ^ 15)
    (hfree : fileNeed [] strs.flatten.length ≤ s.free) :
    wp (storeSem .all) (appendAll pwd path strs) (fun _ t => Stored t id strs.flatten) s ↔
      strs.flatten.length ≤ capacity := by
  have hneed : fileNeed [] strs.flatten.length = needFrom ptrLevel 24 0 strs.flatten.length := Nat.zero_add _
  have hspec := appendAll_spec hpath hstate (fileRep_nil hempty) nofun hstrs
    (Nat.le_of_eq (Nat.zero_add strs.flatten.length)) (by rw [← hneed]; exact hfree.trans (Nat.le_add_left _ _))
  constructor
  · intro h
    by_contra hlong
    obtain ⟨-, t, kids', hfile', hchars, -⟩ := store_exists h
    have hroom := hfile'.text_add_room
    rw [flatten_dataZones] at hchars
    unfold content at hchars
    rw [hchars] at hroom
    unfold capacity at hlong
    omega
  · intro hle
    refine wp_mono hspec ?_
    rintro - t ⟨hstate', kids', hfile', htext⟩
    refine ⟨kids', hfile', ?_, hfile'.layout.catFile_talk (Store.le_of_state hstate' (by decide)) rfl⟩
    rw [flatten_dataZones, htext]
    exact List.take_of_length_le hle

end

/-- Appending to an empty file stores all characters exactly when there are no more than 134316 of them. -/
theorem append_capacity_iff {nb : Nat} [Sized nb] (s : Store nb) (pwd : PathT) (path : Str) (id : Int) (strs : List Str)
    (hpath : wp (storeSem .all) (getPath pwd path) (fun r t => t = s ∧ ∃ p, r.1 = some p ∧ p.id = id) s)
    (hstate : s.state id = some iOccupied) (hempty : ∀ i < 24, (s.zones id).ptr i = 0)
    (hstrs : ∀ str ∈ strs, str ≠ [] ∧ NulFree str ∧ str.length < 2 ^ 15)
    (hfree : fileNeed [] strs.flatten.length ≤ s.free) :
    wp (storeSem .all) (appendAll pwd path strs) (fun _ t => Stored t id strs.flatten) s ↔ strs.flatten.length ≤ capacity :=
  stored_iff hpath hstate hempty hstrs hfree

theorem append_capacity_iff_oneFile :
    wp (storeSem .all) (appendAll .root (lit "f") [lit "h", lit "i"]) (fun _ t => Stored t 5 (lit "hi")) oneFile :=
  (append_capacity_iff oneFile .root (lit "f") 5 [lit "h", lit "i"] oneFile_path (by decide +kernel)
    (fun _ hi => ptr_newInode hi) (by decide) oneFile_free).mpr (by decide)

/-! ## The documented limit -/

instance : Sized 1024 := ⟨by decide, by decide⟩

/-- One empty file on a disk of 4096 zones. -/
def bigDisk : Store 1024 where
  map := ((setState .zero 4 dOccupied).bind (setState · 5 iOccupied)).getD .zero
  zones := oneFile.zones

theorem bigDisk_state (z : Int) : bigDisk.state z =
    if z = 5 then some iOccupied else if z = 4 then some dOccupied else getState (.zero : Bitmap 1024) z := by
  obtain ⟨m, hm, hstate⟩ := @setState_spec 1024 .zero 4 dOccupied (by omega) (by omega) isState_dOccupied
  obtain ⟨m', hm', hstate'⟩ := @setState_spec 1024 m 5 iOccupied (by omega) (by omega) isState_iOccupied
  have hmap : bigDisk.map = m' := by
    unfold bigDisk
    rw [hm, Option.bind_some, hm', Option.getD_some]
  unfold Store.state
  rw [hmap, hstate', hstate]

theorem bigDisk_free : 4090 ≤ bigDisk.free := by
  have hsub : Finset.Ico 6 4096 ⊆
      (Finset.range (4 * 1024)).filter fun i : Nat => 4 ≤ i ∧ bigDisk.state i = some unoccupied := by
    intro i hi
    have hzero : ∀ o < 4, (0 : Byte) >>> UInt8.ofNat (2 * o) &&& 3 = unoccupied := by decide
    rw [Finset.mem_Ico] at hi
    rw [Finset.mem_filter, Finset.mem_range, bigDisk_state, if_neg (by omega), if_neg (by omega),
      getState_of_le (by omega) (by omega), Bytes.get_zero]
    exact ⟨by omega, by omega, congrArg some (hzero _ (Nat.mod_lt _ (by omega)))⟩
  have hcard := Finset.card_le_card hsub
  rwa [Nat.card_Ico] at hcard

/-- One character more than a file can hold, in strings of 63 characters and one of a single character. -/
def longStrs : List Str := List.replicate 2132 (List.replicate 63 97) ++ [[97]]

theorem length_longStrs : longStrs.flatten.length = capacity + 1 := by
  unfold longStrs
  rw [List.flatten_append, List.length_append, List.length_flatten, List.map_replicate, List.sum_replicate,
    List.length_replicate]
  rfl

theorem longStrs_short : ∀ str ∈ longStrs, str ≠ [] ∧ NulFree str ∧ str.length < 2 ^ 15 := by
  intro str hstr
  rcases List.mem_append.mp hstr with hstr | hstr
  · rw [List.eq_of_mem_replicate hstr]
    decide
  · rw [List.mem_singleton.mp hstr]
    decide

/-- 134317 characters do not fit, although there are enough zones for them. -/
theorem append_past_capacity :
    ¬∀ (nb : Nat) (_ : Sized nb) (s : Store nb) (pwd : PathT) (path : Str) (id : Int) (strs : List Str),
    wp (storeSem .all) (getPath pwd path) (fun r t => t = s ∧ ∃ p, r.1 = some p ∧ p.id = id) s →
      s.state id = some iOccupied → (∀ i < 24, (s.zones id).ptr i = 0) →
        (∀ str ∈ strs, str ≠ [] ∧ NulFree str ∧ str.length < 2 ^ 15) → fileNeed [] strs.flatten.length ≤ s.free →
          strs.flatten.length ≤ 136447 →
            wp (storeSem .all) (appendAll pwd path strs) (fun _ t => Stored t id strs.flatten) s := by
  intro hall
  have hpath := path_f (s := bigDisk) (by rw [bigDisk_state]; decide) oneFile_entries
  have hstate : bigDisk.state 5 = some iOccupied := by rw [bigDisk_state, if_pos rfl]
  have hempty : ∀ i < 24, (bigDisk.zones 5).ptr i = 0 := fun _ hi => ptr_newInode hi
  have hneed : fileNeed [] longStrs.flatten.length ≤ bigDisk.free := by
    have hadd := needFrom_add 24 0 1
    have htext : fullText 24 = capacity := by decide
    have hrow : fullRow 24 = 2200 := by decide
    have hzero : fileNeed [] (capacity + 1) = needFrom ptrLevel 24 0 (capacity + 1) := Nat.zero_add _
    rw [htext, hrow] at hadd
    rw [length_longStrs, hzero, hadd]
    exact Nat.le_trans (by decide) bigDisk_free
  have hle := (stored_iff hpath hstate hempty longStrs_short hneed).mp
    (hall 1024 inferInstance bigDisk .root (lit "f") 5 longStrs hpath hstate hempty longStrs_short hneed
      (by rw [length_longStrs]; decide))
  rw [length_longStrs] at hle
  omega

end MiniFs
