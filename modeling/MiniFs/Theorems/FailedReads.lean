import MiniFs.Theorems.Cache

/-! # Failed block reads

`read_block` reports a reply that it does not expect and leaves its destination as it is. `get_block` has made room in the
cache by then, and puts the destination there all the same: the block that was to be evicted, or a new buffer, which names
block `(0, 0)`. -/

namespace MiniFs
open Interact Memory

/-! ## The connection -/

/-- A request for block `(c, s)` is answered with `reply`; the bytes of `data` follow when they are asked for. -/
def repliedSession (c s : Nat) (reply : Str) (data : Bytes 512) : Session :=
  .say (packet (readRequestLine c s)) (.hear (packet reply) (receives (pieces 4 (data.slice 0 blockSize))))

/-- The connection to the disk server as an array of blocks, with `reply` for an answer to each request of `read_block`. -/
def repliedSem (reply : Str) (data : Bytes 512) : Sem blockSig BlockArray where
  op e a o := match e with
    | .readBlock c s dest => ∃ o', Runs noSem.talk (readBlock c s dest) ((), repliedSession c s reply data) o' ∧
        o = o'.map fun p => (p.1, a)
    | .writeBlock src => o = some ((), a.put src.c src.s src.zones)
  write _ _ o := o = none
  read _ _ o := o = none

/-- What `read_block` leaves in its destination. -/
def replied (reply : Str) (data : Bytes 512) (c s : Nat) (dest : Block) : Block :=
  if Accepts reply then ⟨data, c, s⟩ else dest

theorem blit_slice_self (z : Bytes 512) (data : Bytes 512) : z.blit 0 (data.slice 0 blockSize) = data := by
  funext j
  have hj : j.val < blockSize := j.isLt
  have hlen : (data.slice 0 blockSize).length = blockSize := data.length_slice 0 blockSize
  have hget : data.get j.val = data j := dif_pos j.isLt
  unfold Bytes.blit
  rw [if_pos (by omega), Nat.sub_zero, Bytes.getD_slice hj, Nat.zero_add, hget]

section
variable {reply : Str} {data : Bytes 512} {c s : Nat} {dest : Block}

theorem receives_open {ms : List Msg} : (receives ms).Open := by
  induction ms with
  | nil => exact trivial
  | cons m ms ih => exact fun _ _ => ⟨⟨m, rfl⟩, fun _ _ => ih⟩

theorem repliedSession_open : (repliedSession c s reply data).Open := fun _ _ => ⟨⟨_, rfl⟩, fun _ _ => receives_open⟩

theorem readBlock_replied (hc : c < cylinders) (hs : s < sectors) (hnul : NulFree reply)
    (hlen : reply.length < bufferSize - 1) :
    wp noSem.talk (readBlock c s dest) (fun b _ => b = replied reply data c s dest) ((), repliedSession c s reply data) := by
  unfold replied
  by_cases hacc : Accepts reply
  · have hdata : (data.slice 0 blockSize).length = blockSize := data.length_slice 0 blockSize
    refine wp_mono (readBlock_accepts hc hs dest hacc hnul hlen hdata) fun r u hr => ?_
    rw [if_pos hacc, hr.2, blit_slice_self]
  · refine wp_mono (readBlock_rejects hc hs dest hacc hnul hlen) fun r u hr => ?_
    rw [if_neg hacc, hr.2]

theorem repliedSem_read (hc : c < cylinders) (hs : s < sectors) (hnul : NulFree reply) (hlen : reply.length < bufferSize - 1)
    (a : BlockArray) (o : Option (Block × BlockArray)) :
    (repliedSem reply data).op (.readBlock c s dest) a o ↔ o = some (replied reply data c s dest, a) := by
  have hwp : wp noSem.talk (readBlock c s dest) (fun b _ => b = replied reply data c s dest)
      ((), repliedSession c s reply data) := readBlock_replied hc hs hnul hlen
  constructor
  · rintro ⟨o', hr, rfl⟩
    obtain ⟨b, u, rfl, rfl⟩ := wp_iff_runs.mp hwp o' hr
    rfl
  · rintro rfl
    by_contra hno
    refine not_wp_talk_false (X := noSem) nofun repliedSession_open (wp_mono (wp_runs hwp) ?_)
    rintro b u ⟨rfl, hr⟩
    exact hno ⟨_, hr, rfl⟩

end

/-! ## A block that is not in the cache -/

namespace Alloc

/-- The buffer that `get_block` takes from group `g`, if there is one for it. -/
def victim (a : Alloc) (g : Nat) : Option Nat := (a.bCache (g * cacheGrpSz)).bind fun _ => a.bCache (g * cacheGrpSz + 1)

/-- The buffer that is to take a block of group `g`, and what it holds. -/
def buffer (a : Alloc) (g : Nat) : Nat := (a.victim g).getD a.brk
def stale (a : Alloc) (g : Nat) : Block := ((a.victim g).bind a.heap).getD ⟨.zero, 0, 0⟩

/-- The cache with block `b` in this buffer, in front of group `g`. -/
def place (a : Alloc) (g : Nat) (b : Block) : Alloc where
  map := a.map
  bCache j := if j = g * cacheGrpSz then some (a.buffer g)
    else if j = g * cacheGrpSz + 1 then (a.bCache (g * cacheGrpSz)).or (a.bCache j) else a.bCache j
  heap q := if q = a.buffer g then some b else a.heap q
  brk := if (a.victim g).isSome then a.brk else a.brk + 1

/-- No slot holds block `(c, s)`. -/
def Misses (a : Alloc) (c s : Nat) : Prop := ∀ i p b, a.Slot i p b → ¬(b.c = c ∧ b.s = s)

section
variable {a : Alloc} {disk : BlockArray} {c s g i p q : Nat} {b b' : Block}

theorem victim_of_empty (h : a.bCache (g * cacheGrpSz) = none) : a.victim g = none := by
  unfold victim
  rw [h]
  rfl

theorem victim_of_used (h : a.bCache (g * cacheGrpSz) = some p) : a.victim g = a.bCache (g * cacheGrpSz + 1) := by
  unfold victim
  rw [h]
  rfl

theorem victim_eq_none : a.victim g = none ↔ a.bCache (g * cacheGrpSz) = none ∨ a.bCache (g * cacheGrpSz + 1) = none := by
  unfold victim
  cases a.bCache (g * cacheGrpSz) with
  | none => simp
  | some p => simp

theorem victim_eq_some (h : a.victim g = some p) :
    a.bCache (g * cacheGrpSz) ≠ none ∧ a.bCache (g * cacheGrpSz + 1) = some p := by
  cases hfront : a.bCache (g * cacheGrpSz) with
  | none =>
    rw [victim_of_empty hfront] at h
    cases h
  | some r =>
    rw [victim_of_used hfront] at h
    exact ⟨nofun, h⟩

theorem stale_of_none (h : a.victim g = none) : a.stale g = ⟨.zero, 0, 0⟩ := by
  unfold stale
  rw [h]
  rfl

theorem stale_of_some (h : a.victim g = some p) (hb : a.heap p = some b) : a.stale g = b := by
  unfold stale
  rw [h, Option.bind_some, hb]
  rfl

theorem probe_empty (h : a.bCache i = none) : a.probe c s (cacheGrpSz - 1) i = .ret i := by
  show a.probe c s 1 i = _
  unfold probe
  rw [h]

theorem probe_other (h : a.Slot i p b) (hne : ¬(b.c = c ∧ b.s = s)) : a.probe c s (cacheGrpSz - 1) i = .ret (i + 1) := by
  show a.probe c s 1 i = _
  have hne' : ¬(c = b.c ∧ s = b.s) := fun heq => hne ⟨heq.1.symm, heq.2.symm⟩
  unfold probe
  simp only [h.1, h.2, orFault, Prog.ret_bind, if_neg hne']
  rfl

/-- A block that is not in the cache is read over what the buffer for it holds. -/
theorem getBlock_miss (h : a.Agrees disk) {id : Nat} (hmiss : a.Misses (getC id) (getS id)) :
    a.getBlock id = (do
      let b ← readBlockOp (getC id) (getS id) (a.stale (getS id % cacheGrpNum))
      .ret (a.buffer (getS id % cacheGrpNum), a.place (getS id % cacheGrpNum) b)) := by
  unfold getBlock
  dsimp only
  generalize getS id % cacheGrpNum = g
  cases hfront : a.bCache (g * cacheGrpSz) with
  | none =>
    have hv := victim_of_empty hfront
    rw [probe_empty hfront, Prog.ret_bind, hfront, stale_of_none hv]
    simp only [Nat.sub_self, shift, place, buffer, hv, hfront, setHeap, setSlot, Option.getD_none, Option.none_or, ite_self]
    rfl
  | some p =>
    obtain ⟨b, hheap, -, -⟩ := h.held _ p hfront
    have hv := victim_of_used hfront
    rw [probe_other ⟨hfront, hheap⟩ (hmiss _ p b ⟨hfront, hheap⟩), Prog.ret_bind]
    cases hsecond : a.bCache (g * cacheGrpSz + 1) with
    | none =>
      rw [hsecond] at hv
      rw [stale_of_none hv]
      simp only [Nat.add_sub_cancel_left, Nat.add_zero, shift, place, buffer, hv, hfront, setHeap, setSlot, Option.getD_none,
        Option.some_or]
      rfl
    | some q =>
      obtain ⟨b', hheap', -, -⟩ := h.held _ q hsecond
      have hne : getC id ≠ b'.c ∨ getS id ≠ b'.s :=
        not_and_or.mp fun heq => hmiss _ q b' ⟨hsecond, hheap'⟩ ⟨heq.1.symm, heq.2.symm⟩
      rw [hsecond] at hv
      rw [stale_of_some hv hheap']
      simp only [Nat.add_sub_cancel_left, Nat.add_zero, shift, place, buffer, hv, hfront, setHeap, setSlot, Option.getD_some,
        Option.some_or, hheap', orFault, Prog.ret_bind, if_pos hne]
      rfl

theorem Agrees.inj (h : a.Agrees disk) {i j : Nat} (hi : a.bCache i = some p) (hj : a.bCache j = some p) : i = j := by
  obtain ⟨b, hb, -, -⟩ := h.held i p hi
  exact h.once i j p p b b ⟨hi, hb⟩ ⟨hj, hb⟩ rfl rfl

/-- The buffer is in no slot that keeps its block. -/
theorem Agrees.ne_buffer (h : a.Agrees disk) (hbrk : ∀ i p, a.bCache i = some p → p < a.brk) (hq : a.bCache i = some q)
    (hi : a.bCache (g * cacheGrpSz) = none ∨ i ≠ g * cacheGrpSz + 1) : q ≠ a.buffer g := by
  unfold buffer
  cases hv : a.victim g with
  | none =>
    rintro rfl
    exact Nat.lt_irrefl _ (hbrk i _ hq)
  | some p =>
    rintro rfl
    obtain ⟨hfront, hsecond⟩ := victim_eq_some hv
    exact hi.elim hfront fun hne => hne (h.inj hq hsecond)

theorem slot_place : (a.place g b).Slot (g * cacheGrpSz) (a.buffer g) b := ⟨if_pos rfl, if_pos rfl⟩

/-- The cache is right if the block is, and was not in it. -/
theorem Agrees.place (h : a.Agrees disk) (hbrk : ∀ i p, a.bCache i = some p → p < a.brk) (hb : b.zones = disk b.c b.s)
    (hg : b.s % cacheGrpNum = g) (hmiss : a.Misses b.c b.s) : (a.place g b).Agrees disk := by
  refine h.renew (f := g * cacheGrpSz)
    (fun j => if j = g * cacheGrpSz + 1 ∧ a.bCache (g * cacheGrpSz) ≠ none then g * cacheGrpSz else j) hb ?_ slot_place
    (fun j q hj hq => ?_) (fun j hj => ?_) (fun i j hi hj heq => ?_) fun j q b' _ hs => hmiss _ q b' hs
  · rw [hg]
    unfold cacheGrpSz
    omega
  · simp only [Alloc.place, if_neg hj] at hq ⊢
    by_cases hsecond : j = g * cacheGrpSz + 1
    · rw [if_pos hsecond] at hq
      cases hfront : a.bCache (g * cacheGrpSz) with
      | none =>
        rw [hfront, Option.none_or] at hq
        rw [if_neg (by simp), if_neg (h.ne_buffer hbrk hq (Or.inl hfront))]
        exact ⟨hq, rfl⟩
      | some p =>
        rw [hfront, Option.some_or] at hq
        cases hq
        rw [if_pos ⟨hsecond, nofun⟩, if_neg (h.ne_buffer hbrk hfront (Or.inr (by omega)))]
        exact ⟨hfront, rfl⟩
    · rw [if_neg hsecond] at hq
      rw [if_neg (fun hc => hsecond hc.1), if_neg (h.ne_buffer hbrk hq (Or.inr hsecond))]
      exact ⟨hq, rfl⟩
  · split
    · rename_i hc
      rw [hc.1]
      unfold cacheGrpSz
      omega
    · rfl
  · split at heq <;> split at heq <;> omega

theorem readZone_miss (h : a.Agrees disk) {id : Int} (hid : 4 ≤ id) (hmiss : a.Misses (getC id.toNat) (getS id.toNat)) :
    a.readZone id = (do
      let b ← readBlockOp (getC id.toNat) (getS id.toNat) (a.stale (getS id.toNat % cacheGrpNum))
      .ret (some (b.zones.sub (id.toNat % 8 * zoneSize) zoneSize), a.place (getS id.toNat % cacheGrpNum) b)) := by
  unfold readZone
  rw [if_neg (by omega), getBlock_miss h hmiss, Prog.bind_assoc]
  refine congrArg (Prog.op _) (funext fun b => ?_)
  simp only [Prog.ret_bind, slot_place.2, orFault]

theorem writeZone_miss (h : a.Agrees disk) {id : Int} (hid : 4 ≤ id) (hmiss : a.Misses (getC id.toNat) (getS id.toNat))
    (z : Zone) :
    a.writeZone id z = (do
      let b ← readBlockOp (getC id.toNat) (getS id.toNat) (a.stale (getS id.toNat % cacheGrpNum))
      let b' : Block := { b with zones := b.zones.blit (id.toNat % 8 * zoneSize) (z.slice 0 zoneSize) }
      writeBlockOp b'
      .ret ((a.place (getS id.toNat % cacheGrpNum) b).setHeap (a.buffer (getS id.toNat % cacheGrpNum)) (some b'))) := by
  unfold writeZone
  rw [if_neg (by omega), getBlock_miss h hmiss, Prog.bind_assoc]
  refine congrArg (Prog.op _) (funext fun b => ?_)
  simp only [Prog.ret_bind, slot_place.2, orFault]

end

end Alloc

/-! ## Harm -/

/-- Byte `j` of block `(c, s)` is one of zone `id`. -/
def InZone (id c s j : Nat) : Prop :=
  c = getC id ∧ s = getS id ∧ id % 8 * zoneSize ≤ j ∧ j < id % 8 * zoneSize + zoneSize

/-- Where read requests are answered with `reply`, `read_zone` hands back no other bytes for those of zone `id`, `write_zone`
    changes no other bytes of the disk, and what the cache holds stays right. -/
structure Harmless (reply : Str) (data : Bytes 512) (a : Alloc) (disk : BlockArray) (id : ZoneId) : Prop where
  read : wp (repliedSem reply data) (a.readZone id)
    (fun r disk' => (∀ z, r.1 = some z → z = disk.zone id.val.toNat) ∧ r.2.Agrees disk') disk
  write : ∀ z, wp (repliedSem reply data) (a.writeZone id z)
    (fun a' disk' => (∀ c s (j : Fin 512), ¬InZone id.val.toNat c s j → disk' c s j = disk c s j) ∧ a'.Agrees disk') disk

section
variable {reply : Str} {data : Bytes 512} {a : Alloc} {disk : BlockArray} {id : ZoneId}

theorem ZoneId.addr (id : ZoneId) : getC id.val.toNat < cylinders ∧ getS id.val.toNat < sectors := by
  have := id.property
  unfold getC getS zoneSize blockSize cylinders sectors
  omega

theorem exists_other (x : Byte) : ∃ y, y ≠ x := by
  by_cases hx : x = 0
  · exact ⟨1, by rw [hx]; decide⟩
  · exact ⟨0, Ne.symm hx⟩

/-- The block that is in the cache after the reply. -/
def fetched (reply : Str) (data : Bytes 512) (a : Alloc) (id : Nat) : Block :=
  replied reply data (getC id) (getS id) (a.stale (getS id % cacheGrpNum))

theorem readZone_replied {Q : Option Zone × Alloc → BlockArray → Prop} (hnul : NulFree reply)
    (hlen : reply.length < bufferSize - 1) (h : a.Agrees disk) (hmiss : a.Misses (getC id.val.toNat) (getS id.val.toNat)) :
    wp (repliedSem reply data) (a.readZone id) Q disk ↔
      Q (some ((fetched reply data a id.val.toNat).zones.sub (id.val.toNat % 8 * zoneSize) zoneSize),
        a.place (getS id.val.toNat % cacheGrpNum) (fetched reply data a id.val.toNat)) disk := by
  rw [Alloc.readZone_miss h id.property.1 hmiss]
  exact (wp_op_eq (repliedSem_read id.addr.1 id.addr.2 hnul hlen disk)).trans wp_ret

theorem writeZone_replied {z : Zone} {Q : Alloc → BlockArray → Prop} (hnul : NulFree reply)
    (hlen : reply.length < bufferSize - 1) (h : a.Agrees disk) (hmiss : a.Misses (getC id.val.toNat) (getS id.val.toNat))
    {b : Block} (hb : b = fetched reply data a id.val.toNat) {zones : Bytes 512}
    (hz : zones = b.zones.blit (id.val.toNat % 8 * zoneSize) (z.slice 0 zoneSize)) :
    wp (repliedSem reply data) (a.writeZone id z) Q disk ↔
      Q ((a.place (getS id.val.toNat % cacheGrpNum) b).setHeap (a.buffer (getS id.val.toNat % cacheGrpNum))
        (some { b with zones := zones })) (disk.put b.c b.s zones) := by
  subst hb hz
  rw [Alloc.writeZone_miss h id.property.1 hmiss]
  refine (wp_op_eq (repliedSem_read id.addr.1 id.addr.2 hnul hlen disk)).trans ?_
  exact (wp_op_eq fun _ => Iff.rfl).trans wp_ret

/-- No harm is done exactly when the block is that of the zone, and has its bytes. -/
theorem harmless_iff_fetched (hnul : NulFree reply) (hlen : reply.length < bufferSize - 1) (h : a.Agrees disk)
    (hbrk : ∀ i p, a.bCache i = some p → p < a.brk) (hmiss : a.Misses (getC id.val.toNat) (getS id.val.toNat)) {b : Block}
    (hb : b = fetched reply data a id.val.toNat) :
    Harmless reply data a disk id ↔
      (b.c = getC id.val.toNat ∧ b.s = getS id.val.toNat) ∧ b.zones = disk (getC id.val.toNat) (getS id.val.toNat) := by
  have hoff : id.val.toNat % 8 * zoneSize < 512 := by
    unfold zoneSize
    omega
  have hslice : ∀ z : Zone, (z.slice 0 zoneSize).length = zoneSize := fun z => z.length_slice 0 zoneSize
  constructor
  · intro hharm
    have hagrees := ((readZone_replied hnul hlen h hmiss).mp hharm.read).2
    rw [← hb] at hagrees
    obtain ⟨b', hheap, hz, -⟩ := hagrees.held _ _ Alloc.slot_place.1
    cases hheap.symm.trans Alloc.slot_place.2
    have haddr : b.c = getC id.val.toNat ∧ b.s = getS id.val.toNat := by
      by_contra hne
      -- A zone with another first byte than the one that it overwrites.
      obtain ⟨y, hy⟩ := exists_other (disk b.c b.s ⟨_, hoff⟩)
      have hout := ((writeZone_replied (z := fun _ => y) hnul hlen h hmiss hb rfl).mp (hharm.write _)).1 b.c b.s ⟨_, hoff⟩
        fun hin => hne ⟨hin.1, hin.2.1⟩
      refine hy (Eq.trans ?_ hout)
      unfold BlockArray.put Bytes.blit
      rw [if_pos ⟨rfl, rfl⟩, if_pos ⟨Nat.le_refl _, by rw [hslice]; exact Nat.lt_add_of_pos_right (by decide)⟩, Nat.sub_self,
        Bytes.getD_slice (by decide)]
      rfl
    exact ⟨haddr, by rw [hz, haddr.1, haddr.2]⟩
  · rintro ⟨⟨hc, hs⟩, hz⟩
    have hz' : b.zones = disk b.c b.s := by rw [hz, hc, hs]
    have hplace : (a.place (getS id.val.toNat % cacheGrpNum) b).Agrees disk :=
      h.place hbrk hz' (by rw [hs]) (by rw [hc, hs]; exact hmiss)
    refine ⟨(readZone_replied hnul hlen h hmiss).mpr ?_, fun z => (writeZone_replied hnul hlen h hmiss hb rfl).mpr ⟨?_, ?_⟩⟩
    · rw [← hb]
      refine ⟨fun z hr => ?_, hplace⟩
      rw [← Option.some.inj hr, hz]
      rfl
    · intro c s j hout
      unfold BlockArray.put
      split
      · rename_i haddr
        obtain ⟨rfl, rfl⟩ := haddr
        unfold Bytes.blit
        rw [if_neg (fun hin => hout ⟨hc, hs, hin.1, by rw [hslice] at hin; exact hin.2⟩), hz']
      · rfl
    · exact hplace.put Alloc.slot_place _

/-- The first block of the disk is the one that a new buffer names. -/
theorem addr_zero_iff {n : Nat} : (getC n = 0 ∧ getS n = 0) ↔ n < 8 := by
  unfold getC getS zoneSize blockSize sectors
  omega

theorem fetched_iff (h : a.Agrees disk) {n : Nat} (hmiss : a.Misses (getC n) (getS n)) {b : Block}
    (hb : b = fetched reply data a n) :
    ((b.c = getC n ∧ b.s = getS n) ∧ b.zones = disk (getC n) (getS n)) ↔
      if Accepts reply then data = disk (getC n) (getS n)
      else n < 8 ∧ (a.bCache 0 = none ∨ a.bCache 1 = none) ∧ disk 0 0 = .zero := by
  unfold fetched replied at hb
  by_cases hacc : Accepts reply
  · rw [if_pos hacc] at hb ⊢
    subst hb
    exact and_iff_right ⟨rfl, rfl⟩
  · rw [if_neg hacc] at hb ⊢
    cases hv : a.victim (getS n % cacheGrpNum) with
    | none =>
      rw [Alloc.stale_of_none hv] at hb
      subst hb
      constructor
      · rintro ⟨⟨hc, hs⟩, hz⟩
        have hc : 0 = getC n := hc
        have hs : 0 = getS n := hs
        rw [← hc, ← hs] at hz
        rw [← hs] at hv
        exact ⟨addr_zero_iff.mp ⟨hc.symm, hs.symm⟩, Alloc.victim_eq_none.mp hv, hz.symm⟩
      · rintro ⟨hn, -, hz⟩
        obtain ⟨hc, hs⟩ := addr_zero_iff.mpr hn
        rw [hc, hs]
        exact ⟨⟨rfl, rfl⟩, hz.symm⟩
    | some p =>
      -- The block that was to be evicted is another one.
      have hp := Alloc.victim_eq_some hv
      obtain ⟨b', hheap, -, -⟩ := h.held _ p hp.2
      rw [Alloc.stale_of_some hv hheap] at hb
      subst hb
      refine iff_of_false (fun hblk => hmiss _ p b ⟨hp.2, hheap⟩ hblk.1) ?_
      rintro ⟨hn, hfree, -⟩
      rw [(addr_zero_iff.mpr hn).2, Alloc.victim_eq_none.mpr hfree] at hv
      cases hv

end

/-- A failed read does no harm exactly when the reply is taken for a good one and the block follows, or when the buffer is new
    and block 0, which it names, is the one that was asked for, and is zero. -/
theorem harmless_iff (reply : Str) (data : Bytes 512) (a : Alloc) (disk : BlockArray) (id : ZoneId) (h : a.Agrees disk)
    (hbrk : ∀ i p, a.bCache i = some p → p < a.brk) (hmiss : a.Misses (getC id.val.toNat) (getS id.val.toNat))
    (hnul : NulFree reply) (hlen : reply.length < bufferSize - 1) :
    Harmless reply data a disk id ↔
      if Accepts reply then data = disk (getC id.val.toNat) (getS id.val.toNat)
      else id.val.toNat < 8 ∧ (a.bCache 0 = none ∨ a.bCache 1 = none) ∧ disk 0 0 = .zero :=
  (harmless_iff_fetched hnul hlen h hbrk hmiss rfl).trans (fetched_iff h hmiss rfl)

/-- `atoi` cuts the number of this reply to 512. -/
theorem harmless_iff_wrapped : Harmless (lit "FOLLOW 4294967808") (fun _ => 7) .start (fun _ _ _ => 7) ⟨8, by decide⟩ :=
  (harmless_iff (lit "FOLLOW 4294967808") (fun _ => 7) .start (fun _ _ _ => 7) ⟨8, by decide⟩
    ⟨nofun, fun _ _ _ _ _ _ hs => nomatch hs.1⟩ nofun (fun _ _ _ hs => nomatch hs.1) (by decide) (by decide)).mpr
    (by rw [if_pos (by decide +kernel)])

/-- The first read of a process fails: `read_zone` and `write_zone` take an empty block 0 for the block of zone 8. -/
theorem harm_of_invalid : ¬∀ (reply : Str) (data : Bytes 512) (a : Alloc) (disk : BlockArray) (id : ZoneId), a.Agrees disk →
    (∀ i p, a.bCache i = some p → p < a.brk) → a.Misses (getC id.val.toNat) (getS id.val.toNat) → NulFree reply →
      reply.length < bufferSize - 1 → reply ≠ lit "FOLLOW 512" → Harmless reply data a disk id := by
  intro hall
  have hagrees : Alloc.start.Agrees fun _ _ => .zero := ⟨nofun, fun _ _ _ _ _ _ hs => nomatch hs.1⟩
  have hmiss : ∀ c s, Alloc.start.Misses c s := fun _ _ _ _ _ hs => nomatch hs.1
  have hharm := hall (lit "INVALID COMMAND") .zero .start (fun _ _ => .zero) ⟨8, by decide⟩ hagrees nofun (hmiss _ _)
    (by decide) (by decide) (by decide)
  have hblk := ((harmless_iff_fetched (by decide) (by decide) hagrees nofun (hmiss _ _) rfl).trans
    (fetched_iff hagrees (hmiss _ _) rfl)).mp hharm
  rw [if_neg (by decide)] at hblk
  exact absurd hblk.1 (by decide)

end MiniFs
