import MiniFs.Theorems.AddData
import MiniFs.Theorems.Lookup

/-! # The append command

Appending to a well-formed file leaves a well-formed file that holds the old content and then the string, and
touches no zone off the file's last path but those that it takes. -/

namespace MiniFs
open Interact Memory

/-- No run is left out. -/
def Policy.all : Policy := ⟨false, false⟩

/-- Some run returns. -/
theorem store_exists {α : Type} {n : Nat} {s : Store n} {p : FsM α} {Q : α → Store n → Prop}
    (h : wp (storeSem .all) p Q s) : ∃ a t, Q a t :=
  Sem.Alone.exists_of_wp ⟨storeSem_total rfl rfl, fun _ _ => rfl, fun _ _ => rfl⟩ h

/-- The data zones of a file one after the other, in the order in which `cat_file` visits them. -/
def content (kids : List Kid) : Str := kids.flatMap (·.2.text)

/-! ## New files -/

section
variable {parent : Int} {now : UInt64}

theorem ptr_newInode {i : Nat} (hi : i < 24) : (newInode parent now).ptr i = 0 := by
  unfold newInode
  rw [Zone.ptr_setTime hi, Zone.ptr_setSize]
  refine (Bytes.int16_blit_of_disjoint ?_).trans ((Bytes.int16_blit_of_disjoint ?_).trans (Bytes.int16_zero _)) <;>
    rw [length_bytes16] <;> omega

theorem size_newInode : (newInode parent now).size = 1 := by
  unfold newInode
  rw [Zone.size_setTime, Zone.size_setSize ⟨by omega, by omega⟩]

theorem parent_newInode (hparent : Zone.Fits parent) : (newInode parent now).parent = parent := by
  unfold newInode
  rw [Zone.parent_setTime, Zone.parent_setSize]
  refine (Bytes.int16_blit_of_disjoint ?_).trans (Bytes.int16_blit_bytes16 ?_ hparent.1 hparent.2) <;> omega

theorem time_newInode : (newInode parent now).time = now.toNat := Zone.time_setTime

/-- A file without data. -/
theorem fileRep_nil {nb : Nat} {s : Store nb} {id : Int} (h : ∀ i < 24, (s.zones id).ptr i = 0) : FileRep s id [] where
  holds := .nil h
  levels := rfl
  rep := nofun
  full := nofun
  packed := nofun
  nodup := List.nodup_nil
  used := nofun
  not_mem := List.not_mem_nil

end

/-! ## The command -/

theorem append_eq {nb : Nat} {P : Policy} {s : Store nb} {pwd : PathT} {path str : Str} {id : Int} {Q : Nat → Store nb → Prop}
    (hpath : wp (storeSem P) (getPath pwd path) (fun r t => t = s ∧ ∃ p, r.1 = some p ∧ p.id = id) s)
    (hstate : s.state id = some iOccupied) (hne : str ≠ [])
    (h : wp (storeSem P) (appendTo id (s.zones id) str) (fun _ => Q 0) s) : wp (storeSem P) (append pwd path str) Q s := by
  unfold append
  refine wp_seq hpath ?_
  rintro ⟨r, cut⟩ t ⟨rfl, p, rfl, rfl⟩
  dsimp only
  refine wp_bind.mpr (getState_spec hstate ?_)
  rw [if_neg (not_not.mpr rfl)]
  refine wp_bind.mpr (readZone_spec (Store.le_of_state hstate (by decide)) ?_)
  dsimp only
  rw [if_pos (List.length_pos_of_ne_nil hne)]
  unfold appendTo at h
  exact wp_bind.mpr (wp_mono (wp_bind.mp h) fun inode s' h' => wp_bind.mpr (wp_mono h' fun _ _ hQ => wp_ret.mpr hQ))

/-- `append` on a well-formed file, when there are enough free zones and the file stays within its limit. -/
theorem append_correct (s : Store) (pwd : PathT) (path str : Str) (id : Int) (kids : List Kid)
    (hpath : wp (storeSem .all) (getPath pwd path) (fun r t => t = s ∧ ∃ p, r.1 = some p ∧ p.id = id) s)
    (hstate : s.state id = some iOccupied) (hfile : FileRep s id kids) (hne : str ≠ []) (hnul : NulFree str)
    (hshort : str.length < 2 ^ 15) (hroom : fileNeed kids str.length ≤ s.free)
    (hlen : (content kids).length + str.length ≤ 63 * 2132) :
    wp (storeSem .all) (append pwd path str)
      (fun r s' => r = 0 ∧ ∃ (kids' : List Kid) (new : List Int), FileRep s' id kids' ∧ s'.state id = some iOccupied ∧
        content kids' = content kids ++ str ∧
        (s'.zones id).size = 1 + (kids'.flatMap (·.2.ids)).length ∧
        s.Takes new s' ∧ (kids'.flatMap (·.2.ids)).Perm (kids.flatMap (·.2.ids) ++ new) ∧
        ∀ z, z ∉ filePath id kids → z ∉ new → s'.zones z = s.zones z) s := by
  have hused : s.Used id := ⟨_, hstate, by decide⟩
  have h4 := Store.le_of_state hstate (by decide)
  refine append_eq hpath hstate hne ?_
  refine wp_mono (appendTo_spec (k := 0) h4 hused hfile hne hnul hshort (Or.inr hroom)) ?_
  rintro - s' ⟨len, kids', new, happ, -⟩
  have hfit : len = str.length := by
    have := hfile.text_add_room
    have := happ.len_eq
    unfold content at hlen
    omega
  refine ⟨rfl, kids', new, happ.file, (happ.takes.keeps hused).trans hstate, ?_, happ.size, happ.takes, happ.ids, happ.frame⟩
  have htext := happ.text
  rwa [hfit, List.take_length] at htext

/-- A disk with one empty file `f` in the root directory. -/
def oneFile : Store where
  map := ((setState .zero 4 dOccupied).bind (setState · 5 iOccupied)).getD .zero
  zones id :=
    if id = 4 then (dentry.setSubId (Zone.setParent .zero 0) 0 5).blit (dentry.nameOff 0) (lit "f" ++ [0])
    else if id = 5 then newInode 4 0
    else .zero

theorem oneFile_entries : Entries dentry (oneFile.zones 4) [(lit "f", 5)] := by
  have hempty : Entries dentry (Zone.setParent .zero 0) [] := entries_zero dentry dentry_ok
  exact hempty.concat (e := (lit "f", 5)) (by decide)
    (slotIs_set dentry_ok (by decide) ⟨by decide, by decide⟩ (by decide) (by decide) (by decide))
    ((slotWrite_setSubId _ _ _ _).trans (slotWrite_strcpy (by decide)))

/-- The path of a name that the root's dentry lists leads to its id, whatever is on the stack. -/
theorem path_name {nb : Nat} {s : Store nb} {es : List Entry} {name : Str} {id : Int} (hstate : s.state 4 = some dOccupied)
    (hentries : Entries dentry (s.zones 4) es) (hid : s.lookupSub 4 name = some id) (hnul : NulFree name)
    (hslash : slash ∉ name) (hname : name ∉ [[], lit ".", lit ".."]) :
    wp (storeSem .all) (getPath .root name) (fun r t => t = s ∧ ∃ p, r.1 = some p ∧ p.id = id) s := by
  have htake : ∀ {n : Nat} {form : Str}, slash ∈ form → name.take n ≠ form := fun hin heq =>
    hslash (List.mem_of_mem_take (heq ▸ hin))
  obtain ⟨hnil, hdot, hdots⟩ : name ≠ [] ∧ name ≠ lit "." ∧ name ≠ lit ".." := by simpa using hname
  have hwalk : wp (storeSem .all) (getPathFromPwd (name.length + 2) .root name)
      (fun r t => t = s ∧ ∃ p, r.1 = some p ∧ p.id = id) s := by
    unfold getPathFromPwd
    rw [if_neg (not_or.mpr ⟨hnil, hdot⟩), if_neg hdots, if_neg (htake (by decide)), if_neg (htake (by decide))]
    refine wp_bind.mpr (getState_spec hstate ?_)
    rw [if_neg (by decide)]
    unfold getPathFromRoot
    rw [if_neg (not_or.mpr ⟨hnil, hdot⟩), if_neg hdots, if_neg (htake (by decide)), if_neg (htake (by decide))]
    refine wp_bind.mpr (getState_spec hstate ?_)
    rw [if_neg (by decide)]
    dsimp only [pathClone]
    rw [takeWhile_of_not_mem hslash]
    refine wp_bind.mpr (getSubPath_spec (Or.inr (by rw [PathT.id, hid]; exact Option.some_ne_none id)) (by decide) hentries
      hnul ?_)
    rw [PathT.id, hid]
    dsimp only [Option.map_some]
    rw [if_neg (Nat.lt_irrefl _)]
    exact wp_ret.mpr ⟨rfl, _, rfl, rfl⟩
  cases name with
  | nil => exact absurd rfl hnil
  | cons c rest =>
    unfold getPath
    dsimp only
    rw [if_neg fun hc : c = slash => hslash (hc ▸ List.mem_cons_self)]
    exact hwalk

theorem path_f {nb : Nat} {s : Store nb} (hstate : s.state 4 = some dOccupied)
    (hentries : Entries dentry (s.zones 4) [(lit "f", 5)]) :
    wp (storeSem .all) (getPath .root (lit "f")) (fun r t => t = s ∧ ∃ p, r.1 = some p ∧ p.id = 5) s :=
  path_name hstate hentries (lookupSub_eq hentries (by decide)) (by decide) (by decide) (by decide)

theorem oneFile_path :
    wp (storeSem .all) (getPath .root (lit "f")) (fun r t => t = oneFile ∧ ∃ p, r.1 = some p ∧ p.id = 5) oneFile :=
  path_f (by decide +kernel) oneFile_entries

theorem oneFile_free : fileNeed [] (lit "hi").length ≤ oneFile.free := by
  have hneed : fileNeed [] (lit "hi").length = 1 := by decide
  rw [hneed]
  refine Finset.card_pos.mpr ⟨6, Finset.mem_filter.mpr ⟨Finset.mem_range.mpr (by omega), by omega, ?_⟩⟩
  decide +kernel

/-- Two characters appended to the empty file. -/
theorem append_correct_oneFile :
    wp (storeSem .all) (append .root (lit "f") (lit "hi"))
      (fun r s' => r = 0 ∧ ∃ (kids' : List Kid) (new : List Int), FileRep s' 5 kids' ∧ s'.state 5 = some iOccupied ∧
        content kids' = content [] ++ lit "hi" ∧
        (s'.zones 5).size = 1 + (kids'.flatMap (·.2.ids)).length ∧
        oneFile.Takes new s' ∧ (kids'.flatMap (·.2.ids)).Perm (([] : List Kid).flatMap (·.2.ids) ++ new) ∧
        ∀ z, z ∉ filePath 5 [] → z ∉ new → s'.zones z = oneFile.zones z) oneFile :=
  append_correct oneFile .root (lit "f") (lit "hi") 5 [] oneFile_path (by decide +kernel)
    (fileRep_nil fun _ hi => ptr_newInode hi) (by decide) (by decide) (by decide) oneFile_free (by decide)

end MiniFs
