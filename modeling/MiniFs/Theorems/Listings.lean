import MiniFs.Theorems.PackedDir
import MiniFs.Theorems.Records
import MiniFs.Theorems.Runs

/-! # Counts and records

A listing announces how many records follow. `get_ls_len` counts all entries of a directory, and `cat_dir` sends those
of its dentry; `get_cat_len` computes the number of data zones from the number of all zones, and is off by one for some
sizes. -/

namespace MiniFs
open Interact Memory

theorem exchanges_append (as bs : List (Msg → Prop)) (A : Session) : exchanges (as ++ bs) A = exchanges as (exchanges bs A) :=
  List.foldr_append

theorem exchanges_open {answers : List (Msg → Prop)} : (exchanges answers .done).Open := by
  induction answers with
  | nil => trivial
  | cons answer answers ih => exact ⟨⟨_, rfl⟩, fun _ _ _ _ => ih⟩

theorem exchanges_ne_done {answers : List (Msg → Prop)} (h : answers ≠ []) : exchanges answers .done ≠ .done := by
  cases answers with
  | nil => exact absurd rfl h
  | cons answer answers => exact Session.hear_ne_done _ _

/-! ## `ls` -/

/-- `ls` of directory `d` announces and sends one record for each entry. -/
def LsComplete (s : Store) (d : Int) : Prop :=
  wp (storeSem .all) (getLsLen d) (fun r s' => s' = s ∧ r = (s.listing d).length) s ∧
    wp (storeSem .all).talk (catDir d) (fun _ u => u = (s, .done)) (s, exchanges ((s.listing d).map (IsRecord s)) .done)

section
variable {s : Store} {g : Image} {d : Int} {es : List Entry} {rest : List Seg}

theorem DirTree.dirChain (h : DirTree s g) (hd : g.node d = some (.dir es rest)) : DirChain s d es rest where
  le := h.le hd
  chain := h.placed d _ hd
  zones := h.nodup_zones hd
  used := fun i hi => by
    rcases List.mem_cons.mp hi with rfl | hi
    · exact h.used hd
    · exact h.used_own hd i hi

theorem DirTree.getLsLen_listing {P : Policy} (h : DirTree s g) (hd : g.node d = some (.dir es rest)) :
    wp (storeSem P) (getLsLen d) (fun r s' => s' = s ∧ r = (s.listing d).length) s :=
  (h.dirChain hd).listing_eq ▸ getLsLen_spec h hd

/-- The entries of a directory that fits into its dentry are all sent. -/
theorem ShownTree.catDir_listing {P : Policy} (h : ShownTree s g) (hd : g.node d = some (.dir es rest))
    (hle : (s.listing d).length ≤ 4) {A : Session} {Q : Unit → Store × Session → Prop} (hQ : Q () (s, A)) :
    wp (storeSem P).talk (catDir d) Q (s, exchanges ((s.listing d).map (IsRecord s)) A) := by
  have hchain : Chain s.zones dentry d es rest := h.placed d _ hd
  have hlist := (h.dirChain hd).listing_eq
  have hlen : (s.listing d).length = es.length + (rest.flatMap Prod.snd).length := by
    rw [hlist]
    exact List.length_append
  have hnil : rest.flatMap Prod.snd = [] := by
    cases rest with
    | nil => rfl
    | cons seg rest =>
      have hfull : es.length = 4 := hchain.2.1
      exact List.eq_nil_of_length_eq_zero (by omega)
  have heq : s.listing d = es := by
    rw [hlist]
    show es ++ rest.flatMap Prod.snd = es
    rw [hnil, List.append_nil]
  rw [heq]
  exact catDir_talk h hd hQ

theorem ShownTree.lsComplete_iff (h : ShownTree s g) (hd : g.node d = some (.dir es rest)) : LsComplete s d ↔
    (s.listing d).length ≤ 4 := by
  constructor
  · rintro ⟨-, htalk⟩
    by_contra hlt
    have hlist := (h.dirChain hd).listing_eq
    have hchain : Chain s.zones dentry d es rest := h.placed d _ hd
    have hsplit : exchanges ((s.listing d).map (IsRecord s)) .done =
        exchanges (es.map (IsRecord s)) (exchanges ((rest.flatMap Prod.snd).map (IsRecord s)) .done) := by
      rw [hlist, ← exchanges_append, ← List.map_append]
      rfl
    -- The records after the dentry stay to be sent.
    have hrest : rest.flatMap Prod.snd ≠ [] := fun hnil => by
      have hle : es.length ≤ 4 := hchain.entries.le
      rw [hlist] at hlt
      have hlen : (entriesOf es rest).length = es.length + (rest.flatMap Prod.snd).length := List.length_append
      rw [hlen, hnil] at hlt
      exact hlt (by simpa using hle)
    rw [hsplit] at htalk
    have hstop : wp (storeSem .all).talk (catDir d) (fun _ u => u =
      (s, exchanges ((rest.flatMap Prod.snd).map (IsRecord s)) .done))
        (s, exchanges (es.map (IsRecord s)) (exchanges ((rest.flatMap Prod.snd).map (IsRecord s)) .done)) :=
      catDir_talk h hd rfl
    refine not_wp_talk_false (storeSem_total rfl rfl) ?_ (wp_mono (wp_and htalk hstop) ?_)
    · rw [← exchanges_append]
      exact exchanges_open
    · rintro _ u ⟨hu, hu'⟩
      rw [hu] at hu'
      exact exchanges_ne_done (by simpa using hrest) (Prod.mk.inj hu').2.symm
  · exact fun hle => ⟨h.getLsLen_listing hd, h.catDir_listing hd hle rfl⟩

end

/-- `ls` is complete exactly on the directories that fit into their dentry. -/
theorem ls_complete_iff (s : Store) (g : Image) (d : Int) (es : List Entry) (rest : List Seg) (h : ShownTree s g)
    (hd : g.node d = some (.dir es rest)) : LsComplete s d ↔ (s.listing d).length ≤ 4 := h.lsComplete_iff hd

/-- The states that runs of requests without removals lead to. -/
theorem exists_served {reqs : List Str} {n : Nat} (hreqs : ∀ req ∈ reqs, NulFree req ∧ req.length < 127)
    (hsafe : ∀ req ∈ reqs, ∀ w ∈ [lit "rm", lit "rmdir", lit "write"], (toks req 6).head? ≠ some w)
    (hrun : (serveAll reqs .root emptyDisk).map (fun r => (r.2.listing 4).length) = some n) :
    ∃ s g es rest, Inv s g ∧ g.node 4 = some (.dir es rest) ∧ (s.listing 4).length = n := by
  obtain ⟨⟨pwd, s⟩, heq, hn⟩ := Option.map_eq_some_iff.mp hrun
  obtain ⟨g, hinv, -⟩ := (serveAll_reached hreqs hsafe heq).inv fun _ _ _ h => h
  obtain ⟨n, hroot, hdir⟩ := hinv.root
  obtain ⟨es, rest, rfl⟩ := Node.eq_dir hdir
  exact ⟨s, g, es, rest, hinv, hroot, hn⟩

theorem ls_complete_iff_two : ∃ s : Store, (s.listing 4).length = 2 ∧ LsComplete s 4 := by
  obtain ⟨s, g, es, rest, hinv, hd, hlen⟩ := @exists_served [lit "touch a", lit "mkdir b"] 2 (by decide) (by decide)
    (by decide +kernel)
  exact ⟨s, hlen, (ls_complete_iff s g 4 es rest hinv.shown hd).mpr (by omega)⟩

/-- The fifth entry of a directory is announced and not sent. -/
theorem ls_five_entries : ¬∀ s g d es rest, Inv s g → g.node d = some (.dir es rest) → LsComplete s d := by
  intro hall
  obtain ⟨s, g, es, rest, hinv, hd, hlen⟩ :=
    @exists_served [lit "touch a", lit "touch b", lit "touch c", lit "touch d", lit "touch e"] 5 (by decide) (by decide)
      (by decide +kernel)
  have hle := (hinv.shown.lsComplete_iff hd).mp (hall s g 4 es rest hinv hd)
  omega

end MiniFs
