import MiniFs.Theorems.Invariant
import MiniFs.Theorems.Messages
import MiniFs.Theorems.DirSize
import Mathlib.Data.Set.Card

/-! # Listings

What `ls` and `cat` send. Each record is the answer to one `EXPECT`: for an entry of a directory its kind and its name,
for a data zone of a file its text. -/

namespace MiniFs
open Interact Memory

/-! ## The buffer of a record -/

theorem showOwner_some {buffer : Str} {owner : Int} (h : buffer.length ≤ 10) :
    ∃ w, showOwner buffer owner = some (buffer ++ w) ∧ w.length ≤ 56 := by
  have hsize : bufferSize = 128 := rfl
  have hpos : ∀ n : Int, n % 256 ≠ -2 ^ 63 := fun n => by
    have := Int.emod_nonneg n (show (256 : Int) ≠ 0 by decide)
    omega
  -- A part that is a fixed name, or a prefix with a number.
  have hpart : ∀ (b pre : Str) (v : Int), v ≠ -2 ^ 63 → b.length + 31 < bufferSize → pre.length ≤ 6 →
      ∃ w, (if v = 0 then some (catStr b (lit "root")) else catInt (catStr b pre) v) = some (b ++ w) ∧ w.length ≤ 27 := by
    intro b pre v hv hb hpre
    have hroot : (lit "root").length = 4 := rfl
    by_cases h0 : v = 0
    · rw [if_pos h0, catStr_eq (by omega)]
      exact ⟨_, rfl, by decide⟩
    · rw [if_neg h0, catStr_eq (by omega)]
      obtain ⟨w, hw, hlen⟩ := @catInt_some (b ++ pre) v hv (by rw [List.length_append]; omega)
      exact ⟨pre ++ w, by rw [hw, List.append_assoc], by rw [List.length_append]; omega⟩
  have htab : (lit "\t").length = 1 := rfl
  have hlen₁ : (buffer ++ lit "\t").length ≤ 11 := by rw [List.length_append]; omega
  obtain ⟨w, hw, hwlen⟩ := hpart (buffer ++ lit "\t") (lit "user_") _ (hpos (owner / 256)) (by omega) (by decide)
  have hlen₂ : (buffer ++ lit "\t" ++ w).length ≤ 38 := by rw [List.length_append]; omega
  have hlen₃ : (buffer ++ lit "\t" ++ w ++ lit "\t").length ≤ 39 := by rw [List.length_append]; omega
  obtain ⟨w', hw', hwlen'⟩ := hpart (buffer ++ lit "\t" ++ w ++ lit "\t") (lit "group_") _ (hpos owner) (by omega) (by decide)
  have heq : showOwner buffer owner = some (buffer ++ lit "\t" ++ w ++ lit "\t" ++ w') := by
    unfold showOwner
    dsimp only
    rw [catStr_eq (show buffer.length + (lit "\t").length < bufferSize by omega)]
    by_cases h0 : owner / 256 % 256 = 0
    · rw [if_pos h0] at hw ⊢
      rw [hw, Option.bind_eq_bind, Option.bind_some, catStr_eq
        (show (buffer ++ lit "\t" ++ w).length + (lit "\t").length < _ by omega)]
      exact hw'
    · rw [if_neg h0] at hw ⊢
      rw [hw, Option.bind_eq_bind, Option.bind_some, catStr_eq
        (show (buffer ++ lit "\t" ++ w).length + (lit "\t").length < _ by omega)]
      exact hw'
  refine ⟨lit "\t" ++ w ++ lit "\t" ++ w', by rw [heq]; simp only [List.append_assoc], ?_⟩
  simp only [List.length_append]
  omega

/-- The kind and the attributes of a record. -/
theorem showHead_some {d : Bool} {zone : Zone} {size : Int} (hsize : 0 ≤ size) (htime : zone.time < 2 ^ 63) :
    ∃ mid, showHead d zone size = some ((if d then 100 else 45) :: mid) ∧ mid.length ≤ 109 := by
  have hbuf : bufferSize = 128 := rfl
  have htab : (lit "\t").length = 1 := rfl
  have hmode : showMode initStr d zone.mode =
      (if d then 100 else 45) :: [8, 7, 6, 5, 4, 3, 2, 1, 0].map (modeChar zone.mode) := List.nil_append _
  have hlen : (showMode initStr d zone.mode).length = 10 := by rw [hmode]; rfl
  have htime' : toLong zone.time ≠ -2 ^ 63 := by
    unfold toLong
    rw [if_pos htime]
    omega
  obtain ⟨w, hw, hwlen⟩ := @showOwner_some (showMode initStr d zone.mode) zone.owner (by omega)
  have hlen₁ : (showMode initStr d zone.mode ++ w).length ≤ 66 := by rw [List.length_append]; omega
  obtain ⟨w', hw', hwlen'⟩ := @catInt_some (showMode initStr d zone.mode ++ w ++ lit "\t") (size * 64) (by omega)
    (by rw [List.length_append]; omega)
  have hlen₂ : (showMode initStr d zone.mode ++ w ++ lit "\t" ++ w').length ≤ 88 := by
    rw [List.length_append, List.length_append]
    omega
  obtain ⟨w'', hw'', hwlen''⟩ := @catInt_some (showMode initStr d zone.mode ++ w ++ lit "\t" ++ w' ++ lit "\t")
    (toLong zone.time)
    htime' (by rw [List.length_append]; omega)
  have heq : showHead d zone size =
      some (showMode initStr d zone.mode ++ w ++ lit "\t" ++ w' ++ lit "\t" ++ w'') := by
    unfold showHead
    rw [hw, Option.bind_eq_bind, Option.bind_some, catStr_eq (show _ + (lit "\t").length < bufferSize by omega), hw',
      Option.bind_some, catStr_eq (show _ + (lit "\t").length < bufferSize by omega)]
    exact hw''
  rw [heq, hmode]
  refine ⟨[8, 7, 6, 5, 4, 3, 2, 1, 0].map (modeChar zone.mode) ++ w ++ lit "\t" ++ w' ++ lit "\t" ++ w'', by simp, ?_⟩
  simp only [List.length_append, List.length_map, List.length_cons, List.length_nil]
  omega

/-- `show_sub_name` finds the name of an entry of the directory. -/
theorem showSubName_spec {P : Policy} {s : Store} {d : Int} {es : List Entry} {rest : List Seg} {e : Entry} (buffer : Str)
    (h4 : 4 ≤ d) (h : Chain s.zones dentry d es rest) (hlen : rest.length < zoneFuel)
    (hids : ((entriesOf es rest).map Prod.snd).Nodup) (he : e ∈ entriesOf es rest) :
    wp (storeSem P) (showSubName buffer d e.2) (fun r s' => s' = s ∧ r = catStr (catStr buffer (lit "\t")) e.1) s := by
  have hchain : ∀ (rest : List Seg) (L : Layout) (z : Int) (es : List Entry) (fuel : Nat), rest.length < fuel → 4 ≤ z →
      Chain s.zones L z es rest → ((entriesOf es rest).map Prod.snd).Nodup → e ∈ entriesOf es rest →
      wp (storeSem P) (showSubNameAt L (showSubNameCont fuel buffer · e.2) buffer z e.2)
        (fun r s' => s' = s ∧ r = catStr (catStr buffer (lit "\t")) e.1) s := by
    intro rest
    induction rest with
    | nil =>
      intro L z es fuel _ h4 h hids he
      have he : e ∈ es := by simpa [entriesOf] using he
      obtain ⟨k, hk, rfl⟩ := List.mem_iff_getElem.mp he
      have hids : (es.map Prod.snd).Nodup := by simpa [entriesOf] using hids
      have hle := h.1.le
      obtain ⟨-, -, hstr, -⟩ := h.1.get hk
      unfold showSubNameAt
      refine wp_bind.mpr (readZone_spec h4 ?_)
      dsimp only
      rw [findSub_of_getElem h.1 hids hk rfl (Nat.zero_le _) (by omega)]
      dsimp only
      rw [cstr?_eq hstr]
      exact wp_bind.mpr (wp_ret.mpr (wp_ret.mpr ⟨rfl, rfl⟩))
    | cons seg rest ih =>
      intro L z es fuel hfuel h4 h hids he
      obtain ⟨hes, hfull, hnext, hseg, hrest⟩ := h
      have hsplit : entriesOf es (seg :: rest) = es ++ entriesOf seg.2 rest := rfl
      rw [hsplit, List.map_append] at hids
      obtain ⟨hids₁, hids₂, hdisj⟩ := List.nodup_append.mp hids
      unfold showSubNameAt
      refine wp_bind.mpr (readZone_spec h4 ?_)
      dsimp only
      by_cases hin : e ∈ es
      · obtain ⟨k, hk, rfl⟩ := List.mem_iff_getElem.mp hin
        obtain ⟨-, -, hstr, -⟩ := hes.get hk
        rw [findSub_of_getElem hes hids₁ hk rfl (Nat.zero_le _) (by omega)]
        dsimp only
        rw [cstr?_eq hstr]
        exact wp_bind.mpr (wp_ret.mpr (wp_ret.mpr ⟨rfl, rfl⟩))
      · have he' : e ∈ entriesOf seg.2 rest := (List.mem_append.mp (hsplit ▸ he)).resolve_left hin
        have hnot : e.2 ∉ es.map Prod.snd := fun hin' => hdisj e.2 hin' e.2 (List.mem_map_of_mem he') rfl
        obtain ⟨fuel, rfl⟩ := Nat.exists_eq_succ_of_ne_zero (by omega : fuel ≠ 0)
        rw [findSub_of_not_mem hes hnot (by omega)]
        dsimp only
        rw [if_pos (by rw [hnext]; omega), hnext]
        exact ih dirZone seg.1 seg.2 fuel (by simpa using hfuel) hseg hrest hids₂ he'
  exact hchain rest dentry d es zoneFuel hlen h4 h hids he

/-! ## The size of a directory -/

/-- A directory tree with numbers that `itoa` can print: no file has a negative size, and no time is past what a `long`
    holds. -/
structure ShownTree (s : Store) (g : Image) : Prop extends DirTree s g where
  size : ∀ id kids, g.node id = some (.file kids) → 0 ≤ (s.zones id).size
  time : ∀ id n, g.node id = some n → (s.zones id).time < 2 ^ 63

theorem Inv.shown {s : Store} {g : Image} (h : Inv s g) : ShownTree s g where
  toDirTree := h.toDirTree
  size id kids hn := by
    rw [(h.rep id _ hn).2]
    omega
  time := h.time

/-- The zones of directories of a higher rank. -/
def Image.below (g : Image) (r : Nat) : Set Int :=
  {z | ∃ i es rest, g.node i = some (.dir es rest) ∧ r < g.rank i ∧ z ∈ i :: rest.map Prod.fst}

section
variable {P : Policy} {s : Store} {g : Image} {d : Int} {es es' : List Entry} {rest rest' : List Seg} {e : Entry}

theorem DirTree.dir_zones (h : DirTree s g) (hd : g.node d = some (.dir es rest)) : ∀ z ∈ d :: rest.map Prod.fst,
    4 ≤ z ∧ z < 1024 := by
  intro z hz
  rcases List.mem_cons.mp hz with rfl | hz
  · exact ⟨h.le hd, h.lt hd⟩
  · exact ⟨(h.placed d _ hd).le_own z hz, Store.lt_of_state (h.own d _ hd z hz)⟩

theorem DirTree.below_bounds (h : DirTree s g) (r : Nat) : ∀ z ∈ g.below r, 4 ≤ z ∧ z < 1024 := by
  rintro z ⟨i, es, rest, hi, -, hz⟩
  exact h.dir_zones hi z hz

theorem DirTree.finite_below (h : DirTree s g) (r : Nat) : (g.below r).Finite :=
  (Set.finite_Ico 4 1024).subset (h.below_bounds r)

theorem DirTree.below_le (h : DirTree s g) (r : Nat) : (g.below r).ncard ≤ 1020 := by
  have hsub : g.below r ⊆ Set.Ico 4 1024 := h.below_bounds r
  refine (Set.ncard_le_ncard hsub (Set.finite_Ico 4 1024)).trans ?_
  rw [← Finset.coe_Ico, Set.ncard_coe_finset, Int.card_Ico]
  decide

/-- The zones of a subdirectory are among those below the directory. -/
theorem DirTree.below_lt (h : DirTree s g) (hd : g.node d = some (.dir es rest)) (he : e ∈ (Node.dir es rest).entries)
    (hsub : g.node e.2 = some (.dir es' rest')) :
    (g.below (g.rank e.2)).ncard + rest'.length + 1 ≤ (g.below (g.rank d)).ncard := by
  have hrank := (h.entry d _ e hd he).rank
  have hcard : ((e.2 :: rest'.map Prod.fst).toFinset : Set Int).ncard = rest'.length + 1 := by
    have hnodup : (e.2 :: rest'.map Prod.fst).Nodup := h.nodup_zones hsub
    rw [Set.ncard_coe_finset, List.toFinset_card_of_nodup hnodup]
    simp
  have hdisj : Disjoint (g.below (g.rank e.2)) ((e.2 :: rest'.map Prod.fst).toFinset : Set Int) := by
    refine Set.disjoint_left.mpr ?_
    rintro w ⟨i, es₁, rest₁, hi, hr, hmem⟩ hw
    have hw : w ∈ e.2 :: rest'.map Prod.fst := by simpa using hw
    -- The two directories share a zone, so they are the same.
    have hsame : i = e.2 := by
      rcases List.mem_cons.mp hmem with rfl | hmem <;> rcases List.mem_cons.mp hw with heq | hw
      · exact heq
      · exact absurd rfl (h.ne_own hi hsub hw)
      · exact absurd heq.symm (h.ne_own hsub hi hmem)
      · exact h.apart i e.2 _ _ w hi hsub hmem hw
    rw [hsame] at hr
    exact Nat.lt_irrefl _ hr
  have hunion := Set.ncard_union_eq hdisj (h.finite_below _) (Finset.finite_toSet _)
  rw [hcard] at hunion
  rw [Nat.add_assoc, ← hunion]
  refine Set.ncard_le_ncard ?_ (h.finite_below _)
  rintro w (⟨i, es₁, rest₁, hi, hr, hmem⟩ | hw)
  · exact ⟨i, es₁, rest₁, hi, hrank.trans hr, hmem⟩
  · exact ⟨e.2, es', rest', hsub, hrank, by simpa using hw⟩

/-- `get_size` returns, by induction on the zones that it can still come to. -/
theorem getSizeAt_spec (h : ShownTree s g) {fuel : Nat} {L : Layout} {z : Int} {es₀ : List Entry} {rest₀ : List Seg}
    (hd : g.node d = some (.dir es₀ rest₀)) (hL : L.Ok) (hchain : Chain s.zones L z es rest)
    (hsub : ∀ e ∈ entriesOf es rest, e ∈ (Node.dir es₀ rest₀).entries)
    (hfuel : (g.below (g.rank d)).ncard + rest.length < fuel) :
    wp (storeSem P) (getSizeAt fuel L (s.zones z)) (fun r s' => s' = s ∧ 0 ≤ r) s := by
  induction fuel generalizing d L z es rest es₀ rest₀ with
  | zero => omega
  | succ fuel ih =>
    unfold getSizeAt
    have hloop := @sizeSubs_spec 256 P s L z es (getSizeAt fuel dentry) (fun _ r => 0 ≤ r) L.subs 0 1 hchain.entries
      (Nat.zero_le _) (Nat.zero_add _) fun e he => by
      have hmem := hsub e (List.mem_append_left _ he)
      obtain ⟨n, hn⟩ := (h.entry d _ e hd hmem).node
      refine ⟨h.le hn, ?_⟩
      have hstate := h.state _ _ hn
      cases n with
      | file kids =>
        exact Or.inl ⟨hstate, h.size _ _ hn⟩
      | dir es' rest' =>
        refine Or.inr ⟨hstate, ?_⟩
        have hlt := h.below_lt hd hmem hn
        exact ih hn dentry_ok (h.placed _ _ hn) (fun _ he => he) (by omega)
    refine wp_seq hloop ?_
    rintro r s' ⟨rfl, sizes, hsizes, rfl⟩
    have hsum := sum_nonneg_of_forall₂ hsizes
    by_cases hlt : es.length < L.subs
    · rw [if_pos hlt]
      exact wp_ret.mpr ⟨rfl, by omega⟩
    · rw [if_neg hlt]
      dsimp only
      cases rest with
      | nil =>
        rw [if_neg (not_not.mpr hchain.2)]
        exact wp_ret.mpr ⟨rfl, by omega⟩
      | cons seg rest =>
        obtain ⟨-, -, hnext, h4, hrest⟩ := hchain
        rw [if_pos (by rw [hnext]; omega), hnext]
        refine wp_bind.mpr (readZone_spec h4 ?_)
        refine wp_seq (ih hd dirZone_ok hrest (fun e he => hsub e (List.mem_append_right _ he)) ?_) ?_
        · have : (seg :: rest).length = rest.length + 1 := rfl
          omega
        · rintro r s'' ⟨rfl, hr'⟩
          exact wp_ret.mpr ⟨rfl, by omega⟩

theorem getSize_spec (h : ShownTree s g) (hd : g.node d = some (.dir es rest)) :
    wp (storeSem P) (getSize (s.zones d)) (fun r s' => s' = s ∧ 0 ≤ r) s := by
  refine getSizeAt_spec h hd dentry_ok (h.placed d _ hd) (fun _ he => he) ?_
  have hbelow := h.below_le (g.rank d)
  have hown : (rest.map Prod.fst).length ≤ 1024 := length_le_of_used (s := s) (h.nodup d _ hd) fun z hz =>
    ⟨by have := (h.placed d _ hd).le_own z hz; omega, h.used_own hd z hz⟩
  rw [List.length_map] at hown
  unfold zoneFuel
  omega

end

/-! ## The records of a directory -/

/-- The record of entry `e`: its kind and attributes, and then its name. -/
def IsRecord (s : Store) (e : Entry) (m : Msg) : Prop :=
  ∃ mid, mid.length ≤ 109 ∧
    m = packet ((if s.state e.2 = some dOccupied then 100 else 45) :: mid ++ lit "\t" ++ e.1 ++ lit "\n")

section
variable {nb : Nat} {P : Policy} {s : Store nb} {id : Int} {A : Session} {α : Type}

/-- What only looks at the store does so in the middle of a session. -/
theorem look_talk {p : FsM α} {R : α → Prop} {Q : α → Store nb × Session → Prop}
    (hp : wp (storeSem P) p (fun a s' => s' = s ∧ R a) s) (h : ∀ a, R a → Q a (s, A)) : wp (storeSem P).talk p Q (s, A) := by
  refine wp_mono (wp_talk hp) ?_
  rintro a ⟨s', A'⟩ ⟨rfl, rfl, hR⟩
  exact h a hR

theorem getState_talk {b : Byte} {Q : Byte → Store nb × Session → Prop} (hs : s.state id = some b) (h : Q b (s, A)) :
    wp (storeSem P).talk (Fs.getState id) Q (s, A) :=
  look_talk (R := fun a => a = b) (getState_spec hs ⟨rfl, rfl⟩) fun _ ha => ha ▸ h

theorem readZone_talk {Q : Option Zone → Store nb × Session → Prop} (hid : 4 ≤ id) (h : Q (some (s.zones id)) (s, A)) :
    wp (storeSem P).talk (Fs.readZone id) Q (s, A) :=
  look_talk (R := fun a => a = some (s.zones id)) (readZone_spec hid ⟨rfl, rfl⟩) fun _ ha => ha ▸ h

end

section
variable {P : Policy} {s : Store} {g : Image} {d id : Int} {es : List Entry} {rest : List Seg} {e : Entry} {A : Session}

/-- The end of a record, once the kind and the attributes are in the buffer. -/
theorem record_talk (h : ShownTree s g) (hd : g.node d = some (.dir es rest)) (he : e ∈ entriesOf es rest) {k : Byte}
    {mid : Str} (hmid : mid.length ≤ 109) (hk : k = if s.state e.2 = some dOccupied then 100 else 45)
    {Q : Unit → Store × Session → Prop} (hQ : Q () (s, A)) :
    wp (storeSem P).talk (do
      let b ← showSubName (k :: mid) (s.zones e.2).parent e.2
      sendStr (catStr b (lit "\n"))) Q (s, .send (IsRecord s e) fun _ => A) := by
  have hchain := h.placed d _ hd
  rw [(h.entry d _ e hd he).parent]
  refine wp_bind.mpr (look_talk (R := fun r => r = catStr (catStr (k :: mid) (lit "\t")) e.1)
    (showSubName_spec _ (h.le hd) hchain (h.length_rest hd) (h.ids d _ hd) he) ?_)
  rintro r rfl
  have hname := Chain.short hchain e he
  have hbuf : bufferSize = 128 := rfl
  have htab : (lit "\t").length = 1 := rfl
  have hnl : (lit "\n").length = 1 := rfl
  have hcons : (k :: mid).length = mid.length + 1 := rfl
  have h₁ : catStr (k :: mid) (lit "\t") = k :: mid ++ lit "\t" := catStr_eq (by omega)
  have h₂ : catStr (k :: mid ++ lit "\t") e.1 = k :: mid ++ lit "\t" ++ e.1 :=
    catStr_eq (by rw [List.length_append]; omega)
  have h₃ : catStr (k :: mid ++ lit "\t" ++ e.1) (lit "\n") = k :: mid ++ lit "\t" ++ e.1 ++ lit "\n" :=
    catStr_eq (by rw [List.length_append, List.length_append]; omega)
  rw [h₁, h₂, h₃]
  exact sendStr_answer ⟨mid, hmid, by rw [hk]⟩ hQ

theorem showFile_talk (h : ShownTree s g) (hd : g.node d = some (.dir es rest)) (he : e ∈ entriesOf es rest)
    (hs : s.state e.2 = some iOccupied) {Q : Unit → Store × Session → Prop} (hQ : Q () (s, A)) :
    wp (storeSem P).talk (showFile e.2) Q (s, .hear (packet (lit "EXPECT")) (.send (IsRecord s e) fun _ => A)) := by
  obtain ⟨kids, hn⟩ := h.file_of_state hs
  obtain ⟨mid, hmid, hlen⟩ := @showHead_some false (s.zones e.2) (s.zones e.2).size (h.size _ _ hn) (h.time _ _ hn)
  unfold showFile
  refine wp_bind.mpr (getExpect_talk ?_)
  rw [if_pos rfl]
  refine wp_bind.mpr (readZone_talk (h.le hn) ?_)
  dsimp only
  rw [hmid]
  refine wp_bind.mpr (wp_ret.mpr (record_talk h hd he hlen ?_ hQ))
  rw [hs, if_neg fun heq => dOccupied_ne_iOccupied (Option.some.inj heq).symm]
  rfl

theorem showDir_talk (h : ShownTree s g) (hd : g.node d = some (.dir es rest)) (he : e ∈ entriesOf es rest)
    (hs : s.state e.2 = some dOccupied) {Q : Unit → Store × Session → Prop} (hQ : Q () (s, A)) :
    wp (storeSem P).talk (showDir e.2) Q (s, .hear (packet (lit "EXPECT")) (.send (IsRecord s e) fun _ => A)) := by
  obtain ⟨es', rest', hn⟩ := h.dir_of_state hs
  unfold showDir
  refine wp_bind.mpr (getExpect_talk ?_)
  rw [if_pos rfl]
  refine wp_bind.mpr (readZone_talk (h.le hn) (wp_bind.mpr (look_talk (R := fun r => 0 ≤ r) (getSize_spec h hn)
    fun size hsize => ?_)))
  obtain ⟨mid, hmid, hlen⟩ := @showHead_some true (s.zones e.2) size hsize (h.time _ _ hn)
  rw [hmid]
  refine wp_bind.mpr (wp_ret.mpr (record_talk h hd he hlen ?_ hQ))
  rw [if_pos hs]
  rfl

/-- One round of `cat_dir`. -/
theorem catEntry_talk (h : ShownTree s g) (hd : g.node d = some (.dir es rest)) (he : e ∈ entriesOf es rest)
    {Q : Unit → Store × Session → Prop} (hQ : Q () (s, A)) :
    wp (storeSem P).talk (catEntry e.2) Q (s, .hear (packet (lit "EXPECT")) (.send (IsRecord s e) fun _ => A)) := by
  obtain ⟨n, hn⟩ := (h.entry d _ e hd he).node
  unfold catEntry
  cases n with
  | dir es' rest' =>
    have hs : s.state e.2 = some dOccupied := h.state _ _ hn
    refine wp_bind.mpr (getState_talk hs ?_)
    rw [if_pos rfl]
    exact showDir_talk h hd he hs hQ
  | file kids =>
    have hs : s.state e.2 = some iOccupied := h.state _ _ hn
    refine wp_bind.mpr (getState_talk hs ?_)
    rw [if_neg dOccupied_ne_iOccupied.symm]
    refine wp_bind.mpr (getState_talk hs ?_)
    rw [if_pos rfl]
    exact showFile_talk h hd he hs hQ

/-- The rounds over the entries of a zone. -/
theorem eachEntry_talk (h : ShownTree s g) (hd : g.node d = some (.dir es rest)) {l : List Entry}
    (hl : ∀ e ∈ l, e ∈ entriesOf es rest) {Q : Unit → Store × Session → Prop} (hQ : Q () (s, A)) :
    wp (storeSem P).talk (each catEntry (l.map Prod.snd)) Q (s, exchanges (l.map (IsRecord s)) A) := by
  induction l with
  | nil => exact wp_ret.mpr hQ
  | cons e l ih =>
    rw [List.map_cons, each]
    refine wp_bind.mpr (catEntry_talk h hd (hl e List.mem_cons_self) ?_)
    exact ih fun e' he' => hl e' (List.mem_cons_of_mem _ he')

/-- `cat_dir` sends the records of the dentry, and none of the chain after it. -/
theorem catDir_talk (h : ShownTree s g) (hd : g.node d = some (.dir es rest)) {Q : Unit → Store × Session → Prop}
    (hQ : Q () (s, A)) : wp (storeSem P).talk (catDir d) Q (s, exchanges (es.map (IsRecord s)) A) := by
  have hchain : Chain s.zones dentry d es rest := h.placed d _ hd
  have hes := hchain.entries
  have hall : ((es.map Prod.snd).drop 0).take dentry.subs = es.map Prod.snd := by
    rw [List.drop_zero, List.take_of_length_le (by rw [List.length_map]; exact hes.le)]
  unfold catDir
  refine wp_bind.mpr (readZone_talk (h.le hd) ?_)
  dsimp only
  rw [whileUsed_eq hes.holds catEntry (show 0 + dentry.subs ≤ dentry.subs by omega), hall, Prog.bind_assoc]
  refine wp_bind.mpr (eachEntry_talk h hd (fun e he => List.mem_append_left _ he) (wp_bind.mpr (wp_ret.mpr ?_)))
  split
  · split
    · rename_i hnext
      cases rest with
      | nil => exact absurd hchain.2 hnext
      | cons seg rest =>
        obtain ⟨-, -, heq, h4, -⟩ := hchain
        rw [heq]
        unfold catDirCont
        exact wp_bind.mpr (readZone_talk h4 (wp_ret.mpr hQ))
    · exact wp_ret.mpr hQ
  · exact wp_ret.mpr hQ

/-- `get_ls_len` counts the entries of the chain. -/
theorem getLsLen_spec (h : DirTree s g) (hd : g.node d = some (.dir es rest)) :
    wp (storeSem P) (getLsLen d) (fun r s' => s' = s ∧ r = (entriesOf es rest).length) s := by
  have hcont : ∀ (rest : List Seg) (fuel : Nat) (z : Int) (es : List Entry), rest.length < fuel → 4 ≤ z →
      Chain s.zones dirZone z es rest →
      wp (storeSem P) (getLsLenCont fuel z) (fun r s' => s' = s ∧ r = (entriesOf es rest).length) s := by
    intro rest
    induction rest with
    | nil =>
      intro fuel z es hfuel h4 hchain
      obtain ⟨fuel, rfl⟩ := Nat.exists_eq_succ_of_ne_zero (by omega : fuel ≠ 0)
      unfold getLsLenCont
      refine wp_bind.mpr (readZone_spec h4 ?_)
      dsimp only
      rw [if_neg (not_not.mpr hchain.2), countUsed_eq hchain.1 (by omega)]
      exact wp_ret.mpr ⟨rfl, by simp [entriesOf]⟩
    | cons seg rest ih =>
      intro fuel z es hfuel h4 hchain
      obtain ⟨hes, hfull, hnext, hseg, hrest⟩ := hchain
      obtain ⟨fuel, rfl⟩ := Nat.exists_eq_succ_of_ne_zero (by omega : fuel ≠ 0)
      unfold getLsLenCont
      refine wp_bind.mpr (readZone_spec h4 ?_)
      dsimp only
      rw [if_pos (by rw [hnext]; omega), hnext]
      refine wp_seq (ih fuel seg.1 seg.2 (by simpa using hfuel) hseg hrest) ?_
      rintro r s' ⟨rfl, rfl⟩
      refine wp_ret.mpr ⟨rfl, ?_⟩
      have hsplit : entriesOf es (seg :: rest) = es ++ entriesOf seg.2 rest := rfl
      rw [hsplit, List.length_append, hfull]
      exact (Nat.cast_add _ _).symm
  have hlen := h.length_rest hd
  have hchain : Chain s.zones dentry d es rest := h.placed d _ hd
  unfold getLsLen
  have hs : s.state d = some dOccupied := h.state d _ hd
  refine wp_bind.mpr (getState_spec hs ?_)
  rw [if_neg dOccupied_ne_iOccupied, if_pos rfl]
  refine wp_bind.mpr (readZone_spec (h.le hd) ?_)
  dsimp only
  cases rest with
  | nil =>
    rw [if_neg (not_not.mpr hchain.2), countUsed_eq hchain.1 (by omega)]
    exact wp_ret.mpr ⟨rfl, by simp [entriesOf]⟩
  | cons seg rest =>
    obtain ⟨hes, hfull, hnext, hseg, hrest⟩ := hchain
    rw [if_pos (by rw [hnext]; omega), hnext]
    refine wp_seq (hcont rest zoneFuel seg.1 seg.2 (by simpa using Nat.lt_of_succ_lt hlen) hseg hrest) ?_
    rintro r s' ⟨rfl, rfl⟩
    refine wp_ret.mpr ⟨rfl, ?_⟩
    have hsplit : entriesOf es (seg :: rest) = es ++ entriesOf seg.2 rest := rfl
    rw [hsplit, List.length_append, hfull]
    exact (Nat.cast_add _ _).symm

end

end MiniFs
