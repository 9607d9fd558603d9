import MiniFs.Alloc
import MiniFs.Theorems.BlockStore

/-! # Cache coherence

The zones that the file server reads and writes through its cache are the zones on the disk. The cache is
`Coherent` with the disk after every call: each slot holds the disk's bytes of a block of its group, and no
block is in two slots. -/

namespace MiniFs
open Interact Memory

/-- The connection to the disk server as an array of blocks. -/
def diskSem : Sem blockSig BlockArray where
  op e a o := match e with
    | .readBlock c s _ => o = some ((⟨a c s, c, s⟩ : Block), a)
    | .writeBlock src => o = some ((), a.put src.c src.s src.zones)
  write _ _ o := o = none
  read _ _ o := o = none

/-- The operations do to the array what the calls of `block_store` do over the connection. -/
theorem diskSem_read (c : Fin cylinders) (s : Fin sectors) (dest : Block) (a : BlockArray)
    (o : Option (Block × BlockArray)) :
    diskSem.op (.readBlock c s dest) a o ↔ o = some ((BlockCall.read c s dest).effect a) := Iff.rfl

theorem diskSem_write (c : Fin cylinders) (s : Fin sectors) (zones : Bytes 512) (a : BlockArray)
    (o : Option (Unit × BlockArray)) :
    diskSem.op (.writeBlock ⟨zones, c, s⟩) a o ↔ o = some ((), ((BlockCall.write c s zones).effect a).2) := Iff.rfl

theorem readBlockOp_spec {a : BlockArray} {c s : Nat} {dest : Block} {Q : Block → BlockArray → Prop} (h : Q ⟨a c s, c, s⟩ a) :
    wp diskSem (readBlockOp c s dest) Q a :=
  (wp_op_eq fun _ => Iff.rfl).mpr (wp_ret.mpr h)

theorem writeBlockOp_spec {a : BlockArray} {src : Block} {Q : Unit → BlockArray → Prop}
    (h : Q () (a.put src.c src.s src.zones)) : wp diskSem (writeBlockOp src) Q a :=
  (wp_op_eq fun _ => Iff.rfl).mpr (wp_ret.mpr h)

/-! ## Coherence -/

namespace Alloc

/-- Slot `i` holds block `b`, through pointer `p`. -/
def Slot (a : Alloc) (i p : Nat) (b : Block) : Prop := a.bCache i = some p ∧ a.heap p = some b

/-- The cache and the disk agree. -/
structure Coherent (a : Alloc) (disk : BlockArray) : Prop where
  /-- each pointer in the cache is to a live block with the disk's bytes, of the slot's group -/
  held : ∀ i p, a.bCache i = some p → ∃ b, a.heap p = some b ∧ b.zones = disk b.c b.s ∧ i / cacheGrpSz = b.s % cacheGrpNum
  /-- no block is in two slots -/
  once : ∀ i j p q b b', a.Slot i p b → a.Slot j q b' → b.c = b'.c → b.s = b'.s → i = j
  /-- no two slots share a buffer -/
  inj : ∀ i j p, a.bCache i = some p → a.bCache j = some p → i = j
  /-- a group is filled from its first slot -/
  packed : ∀ g, a.bCache (g * cacheGrpSz) = none → a.bCache (g * cacheGrpSz + 1) = none
  /-- the heap has not handed out its next pointer -/
  fresh : ∀ i p, a.bCache i = some p → p < a.brk

/-- What the slots hold is right: the disk's bytes of a block of the slot's group, and no block twice. -/
structure Agrees (a : Alloc) (disk : BlockArray) : Prop where
  held : ∀ i p, a.bCache i = some p → ∃ b, a.heap p = some b ∧ b.zones = disk b.c b.s ∧ i / cacheGrpSz = b.s % cacheGrpNum
  once : ∀ i j p q b b', a.Slot i p b → a.Slot j q b' → b.c = b'.c → b.s = b'.s → i = j

/-- Block `b` in front of group `g`, in the buffer `p`; what was in front is behind it. -/
def install (a : Alloc) (g p : Nat) (b : Block) (brk : Nat) : Alloc where
  map := a.map
  bCache j := if j = g * cacheGrpSz then some p else if j = g * cacheGrpSz + 1 then a.bCache (g * cacheGrpSz) else a.bCache j
  heap q := if q = p then some b else a.heap q
  brk := brk

/-- A buffer that may take a new block: that of the second slot, or a new one when this slot is empty. -/
def Spare (a : Alloc) (g p brk : Nat) : Prop :=
  (a.bCache (g * cacheGrpSz + 1) = some p ∧ brk = a.brk) ∨
    (a.bCache (g * cacheGrpSz + 1) = none ∧ p = a.brk ∧ brk = a.brk + 1)

section
variable {a : Alloc} {disk : BlockArray} {g p brk : Nat} {b : Block}

theorem Coherent.agrees (h : a.Coherent disk) : a.Agrees disk := ⟨h.held, h.once⟩

/-- The group of a slot that holds a block. -/
theorem Agrees.group (h : a.Agrees disk) {i q : Nat} {b' : Block} (hs : a.Slot i q b') :
    i / cacheGrpSz = b'.s % cacheGrpNum := by
  obtain ⟨b'', hh, -, hg⟩ := h.held i q hs.1
  cases hs.2.symm.trans hh
  exact hg

/-- Block `b` is new in slot `f`, and every other slot `j` holds what slot `old j` held before. -/
theorem Agrees.renew {a' : Alloc} {f : Nat} (old : Nat → Nat) (h : a.Agrees disk) (hb : b.zones = disk b.c b.s)
    (hg : f / cacheGrpSz = b.s % cacheGrpNum) (hf : a'.Slot f p b)
    (hold : ∀ j q, j ≠ f → a'.bCache j = some q → a.bCache (old j) = some q ∧ a'.heap q = a.heap q)
    (hgrp : ∀ j, j ≠ f → old j / cacheGrpSz = j / cacheGrpSz) (hinj : ∀ i j, i ≠ f → j ≠ f → old i = old j → i = j)
    (hne : ∀ j q b', j ≠ f → a.Slot (old j) q b' → ¬(b'.c = b.c ∧ b'.s = b.s)) : a'.Agrees disk where
  held := by
    intro i q hq
    by_cases hi : i = f
    · subst hi
      obtain rfl : p = q := Option.some.inj (hf.1.symm.trans hq)
      exact ⟨b, hf.2, hb, hg⟩
    · obtain ⟨hslot, hheap⟩ := hold i q hi hq
      obtain ⟨b', hh, hz, hgrp'⟩ := h.held _ q hslot
      exact ⟨b', hheap.trans hh, hz, (hgrp i hi).symm.trans hgrp'⟩
  once := by
    have hfront : ∀ q b', a'.Slot f q b' → b' = b := fun q b' hs => by
      obtain rfl : p = q := Option.some.inj (hf.1.symm.trans hs.1)
      exact Option.some.inj (hs.2.symm.trans hf.2)
    have hback : ∀ j q b', j ≠ f → a'.Slot j q b' → a.Slot (old j) q b' := fun j q b' hj hs => by
      obtain ⟨hslot, hheap⟩ := hold j q hj hs.1
      exact ⟨hslot, hheap.symm.trans hs.2⟩
    intro i j q q' b₁ b₂ hi hj hc hs
    by_cases hif : i = f
    · subst hif
      by_contra hjf
      rw [hfront q b₁ hi] at hc hs
      exact hne j q' b₂ (Ne.symm hjf) (hback j q' b₂ (Ne.symm hjf) hj) ⟨hc.symm, hs.symm⟩
    · by_cases hjf : j = f
      · subst hjf
        rw [hfront q' b₂ hj] at hc hs
        exact absurd ⟨hc, hs⟩ (hne i q b₁ hif (hback i q b₁ hif hi))
      · exact hinj i j hif hjf (h.once _ _ q q' b₁ b₂ (hback i q b₁ hif hi) (hback j q' b₂ hjf hj) hc hs)

/-- A cached block and the disk's block are overwritten together. -/
theorem Agrees.put (h : a.Agrees disk) {i : Nat} (hs : a.Slot i p b) (z : Bytes 512) :
    (a.setHeap p (some { b with zones := z })).Agrees (disk.put b.c b.s z) where
  held := by
    intro j q hq
    obtain ⟨b', hh, hz, hg⟩ := h.held j q hq
    by_cases hqp : q = p
    · subst hqp
      cases hs.2.symm.trans hh
      exact ⟨_, if_pos rfl, (if_pos ⟨rfl, rfl⟩).symm, hg⟩
    · refine ⟨b', (if_neg hqp).trans hh, ?_, hg⟩
      have hne : ¬(b'.c = b.c ∧ b'.s = b.s) := by
        rintro ⟨hc, hs'⟩
        have hij := h.once j i q p b' b ⟨hq, hh⟩ hs hc hs'
        subst hij
        exact hqp (Option.some.inj (hq.symm.trans hs.1))
      rw [hz, BlockArray.put, if_neg hne]
  once := by
    have hold : ∀ j q b', (a.setHeap p (some { b with zones := z })).Slot j q b' →
        ∃ b'', a.Slot j q b'' ∧ b'.c = b''.c ∧ b'.s = b''.s := by
      rintro j q b' ⟨hq, hh⟩
      simp only [setHeap] at hh
      split at hh
      · rename_i hqp
        cases hh
        subst hqp
        exact ⟨b, ⟨hq, hs.2⟩, rfl, rfl⟩
      · exact ⟨b', ⟨hq, hh⟩, rfl, rfl⟩
    intro j k q q' b' b'' hj hk hc hs'
    obtain ⟨b₁, hj', hc₁, hs₁⟩ := hold j q b' hj
    obtain ⟨b₂, hk', hc₂, hs₂⟩ := hold k q' b'' hk
    exact h.once j k q q' b₁ b₂ hj' hk' (hc₁.symm.trans (hc.trans hc₂)) (hs₁.symm.trans (hs'.trans hs₂))
/-- A buffer that is spare is not in use in any other slot. -/
theorem Coherent.ne_of_spare (h : a.Coherent disk) (hp : a.Spare g p brk) {j q : Nat} (hj : j ≠ g * cacheGrpSz + 1)
    (hq : a.bCache j = some q) : q ≠ p := by
  rintro rfl
  rcases hp with ⟨hs, -⟩ | ⟨-, rfl, -⟩
  · exact hj (h.inj j _ q hq hs)
  · exact Nat.lt_irrefl _ (h.fresh j _ hq)

/-- Where the slots of the new cache come from. -/
theorem Coherent.slot_install (h : a.Coherent disk) (hp : a.Spare g p brk) {j q : Nat}
    (hq : (a.install g p b brk).bCache j = some q) :
    (j = g * cacheGrpSz ∧ q = p) ∨ (j = g * cacheGrpSz + 1 ∧ a.bCache (g * cacheGrpSz) = some q ∧ q ≠ p) ∨
      (j ≠ g * cacheGrpSz ∧ j ≠ g * cacheGrpSz + 1 ∧ a.bCache j = some q ∧ q ≠ p) := by
  simp only [install] at hq
  split at hq
  · rename_i hj
    exact Or.inl ⟨hj, (Option.some.inj hq).symm⟩
  · rename_i hj
    split at hq
    · rename_i hj'
      exact Or.inr (Or.inl ⟨hj', hq, h.ne_of_spare hp (by omega) hq⟩)
    · rename_i hj'
      exact Or.inr (Or.inr ⟨hj, hj', hq, h.ne_of_spare hp hj' hq⟩)

theorem heap_install_of_ne {q : Nat} (hq : q ≠ p) : (a.install g p b brk).heap q = a.heap q := if_neg hq

theorem heap_install_self : (a.install g p b brk).heap p = some b := if_pos rfl

/-- What the slots of the new cache hold is right. -/
theorem Coherent.agrees_install (h : a.Coherent disk) (hb : b.zones = disk b.c b.s) (hg : b.s % cacheGrpNum = g)
    (hp : a.Spare g p brk) (hne : ∀ q b', a.Slot (g * cacheGrpSz) q b' → ¬(b'.c = b.c ∧ b'.s = b.s)) :
    (a.install g p b brk).Agrees disk := by
  refine h.agrees.renew (f := g * cacheGrpSz) (fun j => if j = g * cacheGrpSz + 1 then g * cacheGrpSz else j) hb ?_
    ⟨if_pos rfl, heap_install_self⟩ (fun j q hj hq => ?_) (fun j hj => ?_) (fun i j hi hj heq => ?_) fun j q b' hj hs => ?_
  · rw [hg]
    unfold cacheGrpSz
    omega
  · rcases h.slot_install hp hq with ⟨hj', -⟩ | ⟨hj', hq', hqp⟩ | ⟨-, hj', hq', hqp⟩
    · exact absurd hj' hj
    · rw [if_pos hj']
      exact ⟨hq', heap_install_of_ne hqp⟩
    · rw [if_neg hj']
      exact ⟨hq', heap_install_of_ne hqp⟩
  · split
    · rename_i hj'
      rw [hj']
      unfold cacheGrpSz
      omega
    · rfl
  · split at heq <;> split at heq <;> omega
  · split at hs
    · exact hne q b' hs
    · -- The slots of the other groups hold blocks of other groups.
      rename_i hj'
      rintro ⟨-, heq⟩
      have hgrp := h.agrees.group hs
      rw [heq, hg] at hgrp
      unfold cacheGrpSz at hgrp hj hj'
      omega

theorem Coherent.install (h : a.Coherent disk) (hb : b.zones = disk b.c b.s) (hg : b.s % cacheGrpNum = g)
    (hp : a.Spare g p brk) (hne : ∀ q b', a.Slot (g * cacheGrpSz) q b' → ¬(b'.c = b.c ∧ b'.s = b.s)) :
    (a.install g p b brk).Coherent disk where
  held := (h.agrees_install hb hg hp hne).held
  once := (h.agrees_install hb hg hp hne).once
  inj := by
    intro i j q hi hj
    rcases h.slot_install hp hi with ⟨hi', hqp⟩ | ⟨hi', hqi, hqp⟩ | ⟨hi1, hi2, hqi, hqp⟩
    · rcases h.slot_install hp hj with ⟨hj', -⟩ | ⟨-, -, hqp'⟩ | ⟨-, -, -, hqp'⟩
      · rw [hi', hj']
      · exact absurd hqp hqp'
      · exact absurd hqp hqp'
    · rcases h.slot_install hp hj with ⟨-, hqp'⟩ | ⟨hj', -⟩ | ⟨hj1, -, hqj, -⟩
      · exact absurd hqp' hqp
      · rw [hi', hj']
      · exact absurd (h.inj _ _ q hqi hqj).symm hj1
    · rcases h.slot_install hp hj with ⟨-, hqp'⟩ | ⟨-, hqj, -⟩ | ⟨-, -, hqj, -⟩
      · exact absurd hqp' hqp
      · exact absurd (h.inj _ _ q hqi hqj) hi1
      · exact h.inj _ _ q hqi hqj
  packed := by
    intro g' hg'
    by_cases heq : g' = g
    · rw [heq] at hg'
      simp [Alloc.install] at hg'
    · have h1 : ¬g' * cacheGrpSz = g * cacheGrpSz := by unfold cacheGrpSz; omega
      have h2 : ¬g' * cacheGrpSz = g * cacheGrpSz + 1 := by unfold cacheGrpSz; omega
      have h3 : ¬g' * cacheGrpSz + 1 = g * cacheGrpSz := by unfold cacheGrpSz; omega
      have h4 : ¬g' * cacheGrpSz + 1 = g * cacheGrpSz + 1 := by omega
      simp only [Alloc.install, h1, h2, h3, h4, if_false] at hg' ⊢
      exact h.packed g' hg'
  fresh := by
    intro i q hq
    have hle : a.brk ≤ brk := by
      rcases hp with ⟨-, rfl⟩ | ⟨-, -, rfl⟩
      · exact Nat.le_refl _
      · exact Nat.le_succ _
    rcases h.slot_install hp hq with ⟨-, rfl⟩ | ⟨-, hq', -⟩ | ⟨-, -, hq', -⟩
    · rcases hp with ⟨hs, rfl⟩ | ⟨-, rfl, rfl⟩
      · exact h.fresh _ q hs
      · exact Nat.lt_succ_self _
    · exact (h.fresh _ q hq').trans_le hle
    · exact (h.fresh _ q hq').trans_le hle

/-- An empty cache. -/
theorem Coherent.empty (h : ∀ i, a.bCache i = none) : a.Coherent disk where
  held := fun i p hp => by rw [h] at hp; cases hp
  once := fun i j p q b b' hi => by rw [Slot, h] at hi; cases hi.1
  inj := fun i j p hp => by rw [h] at hp; cases hp
  packed := fun g _ => h _
  fresh := fun i p hp => by rw [h] at hp; cases hp

theorem Coherent.put (h : a.Coherent disk) {i : Nat} (hs : a.Slot i p b) (z : Bytes 512) :
    (a.setHeap p (some { b with zones := z })).Coherent (disk.put b.c b.s z) where
  held := (h.agrees.put hs z).held
  once := (h.agrees.put hs z).once
  inj := h.inj
  packed := h.packed
  fresh := h.fresh

end

/-! ## Looking up a block -/

/-- What `get_block` returns: a pointer in the cache to the disk's bytes of the block of zone `id`. -/
structure Got (a a' : Alloc) (disk : BlockArray) (id p : Nat) (b : Block) : Prop where
  coherent : a'.Coherent disk
  map : a'.map = a.map
  slot : a'.Slot (getS id % cacheGrpNum * cacheGrpSz) p b
  addr : b.c = getC id ∧ b.s = getS id

theorem Got.install {a : Alloc} {disk : BlockArray} {id p brk : Nat} {b : Block} (h : a.Coherent disk)
    (hc : b.c = getC id) (hs : b.s = getS id) (hb : b.zones = disk b.c b.s)
    (hp : a.Spare (getS id % cacheGrpNum) p brk)
    (hne : ∀ q b', a.Slot (getS id % cacheGrpNum * cacheGrpSz) q b' → ¬(b'.c = getC id ∧ b'.s = getS id)) :
    a.Got (a.install (getS id % cacheGrpNum) p b brk) disk id p b where
  coherent := h.install hb (by rw [hs]) hp (by rw [hc, hs]; exact hne)
  map := rfl
  slot := ⟨if_pos rfl, heap_install_self⟩
  addr := ⟨hc, hs⟩

/-- The probing loop runs over the first slot of a group only. -/
theorem probe_spec {a : Alloc} {disk : BlockArray} (h : a.Coherent disk) (c s start : Nat)
    {Q : Nat → BlockArray → Prop} (hhit : ∀ p b, a.Slot start p b → b.c = c → b.s = s → Q start disk)
    (hnone : a.bCache start = none → Q start disk)
    (hmiss : ∀ p b, a.Slot start p b → ¬(b.c = c ∧ b.s = s) → Q (start + 1) disk) :
    wp diskSem (a.probe c s (cacheGrpSz - 1) start) Q disk := by
  show wp diskSem (a.probe c s 1 start) Q disk
  unfold probe
  cases hslot : a.bCache start with
  | none => exact wp_ret.mpr (hnone hslot)
  | some p =>
    obtain ⟨b, hh, -, -⟩ := h.held start p hslot
    simp only [hh]
    by_cases heq : c = b.c ∧ s = b.s
    · refine wp_bind.mpr (wp_ret.mpr ?_)
      rw [if_pos heq]
      exact wp_ret.mpr (hhit p b ⟨hslot, hh⟩ heq.1.symm heq.2.symm)
    · refine wp_bind.mpr (wp_ret.mpr ?_)
      rw [if_neg heq]
      exact wp_ret.mpr (hmiss p b ⟨hslot, hh⟩ fun hb => heq ⟨hb.1.symm, hb.2.symm⟩)

theorem setSlot_self {a : Alloc} {i : Nat} {p : Option Nat} (h : a.bCache i = p) : a.setSlot i p = a := by
  have : (fun j => if j = i then p else a.bCache j) = a.bCache := by
    funext j
    split
    · rename_i hj
      rw [hj, h]
    · rfl
  unfold setSlot
  rw [this]

theorem setHeap_self {a : Alloc} {p : Nat} {b : Option Block} (h : a.heap p = b) : a.setHeap p b = a := by
  have : (fun q => if q = p then b else a.heap q) = a.heap := by
    funext q
    split
    · rename_i hq
      rw [hq, h]
    · rfl
  unfold setHeap
  rw [this]

/-- `get_block` keeps the cache coherent, and returns a pointer to the block of the zone. -/
theorem getBlock_spec {a : Alloc} {disk : BlockArray} (h : a.Coherent disk) (id : Nat) :
    wp diskSem (a.getBlock id) (fun r disk' => disk' = disk ∧ ∃ b, a.Got r.2 disk id r.1 b) disk := by
  unfold getBlock
  refine wp_bind.mpr (probe_spec h _ _ _ ?_ ?_ ?_)
  · -- a hit in the first slot
    intro p b hslot hc hs
    have hhit : ¬(getC id ≠ b.c ∨ getS id ≠ b.s) := by rw [hc, hs]; simp
    simp only [hslot.1, hslot.2, Nat.sub_self, shift]
    refine wp_bind.mpr (wp_ret.mpr ?_)
    rw [if_neg hhit, setSlot_self hslot.1]
    exact wp_ret.mpr ⟨rfl, b, h, rfl, hslot, hc, hs⟩
  · -- the group is empty
    intro hnone
    have hnone' := h.packed _ hnone
    simp only [hnone, Nat.sub_self, shift]
    refine wp_bind.mpr (readBlockOp_spec (wp_ret.mpr ⟨rfl, ⟨disk (getC id) (getS id), getC id, getS id⟩, ?_⟩))
    have hgot := Got.install (b := ⟨disk (getC id) (getS id), getC id, getS id⟩) h rfl rfl rfl
      (Or.inr ⟨hnone', rfl, rfl⟩) (fun q b' hq => by rw [Slot, hnone] at hq; cases hq.1)
    have heq : a.install (getS id % cacheGrpNum) a.brk ⟨disk (getC id) (getS id), getC id, getS id⟩ (a.brk + 1) =
        ({ a with brk := a.brk + 1 }.setHeap a.brk (some ⟨disk (getC id) (getS id), getC id, getS id⟩)).setSlot
          (getS id % cacheGrpNum * cacheGrpSz) (some a.brk) := by
      have hfun : ∀ j, (if j = getS id % cacheGrpNum * cacheGrpSz + 1 then
          a.bCache (getS id % cacheGrpNum * cacheGrpSz) else a.bCache j) = a.bCache j := by
        intro j
        split
        · rename_i hj
          rw [hj, hnone, hnone']
        · rfl
      simp only [install, setHeap, setSlot, hfun]
    rw [heq] at hgot
    exact hgot
  · -- another block is in the first slot
    intro p b hslot hne
    have hmiss : ∀ q b', a.Slot (getS id % cacheGrpNum * cacheGrpSz) q b' → ¬(b'.c = getC id ∧ b'.s = getS id) := by
      intro q b' hq
      cases hslot.1.symm.trans hq.1
      cases hslot.2.symm.trans hq.2
      exact hne
    simp only [Nat.add_sub_cancel_left, shift, Nat.add_zero]
    cases hsec : a.bCache (getS id % cacheGrpNum * cacheGrpSz + 1) with
    | none =>
      exact wp_bind.mpr (readBlockOp_spec (wp_ret.mpr ⟨rfl, _, Got.install h rfl rfl rfl (Or.inr ⟨hsec, rfl, rfl⟩) hmiss⟩))
    | some q =>
      obtain ⟨b', hh, hz, -⟩ := h.held _ q hsec
      simp only [hh]
      refine wp_bind.mpr (wp_ret.mpr ?_)
      by_cases heq : getC id ≠ b'.c ∨ getS id ≠ b'.s
      · rw [if_pos heq]
        exact wp_bind.mpr (readBlockOp_spec (wp_ret.mpr ⟨rfl, _, Got.install h rfl rfl rfl (Or.inl ⟨hsec, rfl⟩) hmiss⟩))
      · rw [if_neg heq]
        simp only [not_or, not_not] at heq
        have hgot := Got.install h heq.1.symm heq.2.symm hz (Or.inl ⟨hsec, rfl⟩) hmiss
        refine wp_ret.mpr ⟨rfl, b', ?_⟩
        have hinst : a.install (getS id % cacheGrpNum) q b' a.brk =
            ((a.setSlot (getS id % cacheGrpNum * cacheGrpSz + 1) (a.bCache (getS id % cacheGrpNum * cacheGrpSz))).setHeap
              q (some b')).setSlot (getS id % cacheGrpNum * cacheGrpSz) (some q) := rfl
        rw [hinst, setHeap_self (a := a.setSlot _ _) hh] at hgot
        exact hgot

end Alloc

/-! ## Zones -/

/-- The zones of the disk. -/
def BlockArray.zone (disk : BlockArray) (id : Nat) : Zone :=
  (disk (getC id) (getS id)).sub (id % 8 * zoneSize) zoneSize

/-- Two zones are at the same place of the same block only if they are the same. -/
theorem zone_addr_inj {id id' : Nat} (hc : getC id = getC id') (hs : getS id = getS id') (ho : id % 8 = id' % 8) :
    id = id' := by
  unfold getC getS zoneSize blockSize sectors at *
  omega

theorem sub_blit_self {b : Bytes 512} {off len : Nat} (h : off + len ≤ 512) (z : Bytes len) :
    (b.blit off (z.slice 0 len)).sub off len = z := by
  have hlen := z.length_slice 0 len
  funext j
  have hj := j.isLt
  have hget : z.get j.val = z j := dif_pos hj
  show (b.blit off (z.slice 0 len)).get (off + j.val) = z j
  rw [Bytes.get_blit_of_mem (Nat.le_add_right _ _) (by omega) (by omega), Nat.add_sub_cancel_left,
    Bytes.getD_slice hj, Nat.zero_add, hget]

theorem sub_blit_of_disjoint {b : Bytes 512} {off off' : Nat} {l : List Byte} {len : Nat}
    (h : off' + len ≤ off ∨ off + l.length ≤ off') : (b.blit off l).sub off' len = b.sub off' len := by
  funext j
  have hj := j.isLt
  exact Bytes.get_blit_of_disjoint (by omega)

theorem zone_put_block {disk : BlockArray} {id : Nat} (z : Zone) {b : Bytes 512} (hb : b = disk (getC id) (getS id))
    (id' : Nat) :
    (disk.put (getC id) (getS id) (b.blit (id % 8 * zoneSize) (z.slice 0 zoneSize))).zone id' =
      if id' = id then z else disk.zone id' := by
  have hlen : (z.slice 0 zoneSize).length = zoneSize := z.length_slice 0 zoneSize
  unfold BlockArray.zone BlockArray.put
  by_cases hid : id' = id
  · subst hid
    rw [if_pos ⟨rfl, rfl⟩, if_pos rfl]
    exact sub_blit_self (by unfold zoneSize; omega) z
  · rw [if_neg hid]
    by_cases hblk : getC id' = getC id ∧ getS id' = getS id
    · have hoff : id' % 8 ≠ id % 8 := fun ho => hid (zone_addr_inj hblk.1 hblk.2 ho)
      rw [if_pos hblk, sub_blit_of_disjoint, hb, hblk.1, hblk.2]
      rw [hlen]
      unfold zoneSize
      omega
    · rw [if_neg hblk]

/-- Block 0 holds the zones 0 to 7. -/
theorem zone_put_zero (disk : BlockArray) (id : Nat) :
    (disk.put 0 0 .zero).zone id = if id < 8 then .zero else disk.zone id := by
  unfold BlockArray.zone BlockArray.put
  have hiff : (getC id = 0 ∧ getS id = 0) ↔ id < 8 := by
    unfold getC getS zoneSize blockSize sectors
    omega
  by_cases h : id < 8
  · rw [if_pos (hiff.mpr h), if_pos h]
    funext j
    exact Bytes.get_zero _
  · rw [if_neg (mt hiff.mp h), if_neg h]

/-! ## Calls of the cache -/

/-- The number of a zone that holds data. -/
abbrev ZoneId := { id : Int // 4 ≤ id ∧ id < 32768 }

/-- A call of alloc.c. -/
inductive ZoneCall where
  | read (id : ZoneId)
  | write (id : ZoneId) (z : Zone)
  | format

/-- The call of the function of alloc.c; only a read has a result. -/
def ZoneCall.run (a : Alloc) : ZoneCall → BlockM (Option Zone × Alloc)
  | read id => a.readZone id
  | write id z => do .ret (none, ← a.writeZone id z)
  | format => do .ret (none, ← a.format)

/-- The result of a call on an array of zones, and the array after it. `format` clears the zones of block 0. -/
def ZoneCall.effect (Z : Nat → Zone) : ZoneCall → Option Zone × (Nat → Zone)
  | read id => (some (Z id.val.toNat), Z)
  | write id z => (none, fun i => if i = id.val.toNat then z else Z i)
  | format => (none, fun i => if i < 8 then .zero else Z i)

namespace Alloc
variable {a : Alloc} {disk : BlockArray}

theorem Got.zones {a' : Alloc} {id p : Nat} {b : Block} (h : a.Got a' disk id p b) :
    b.zones = disk (getC id) (getS id) := by
  obtain ⟨b', hh, hz, -⟩ := h.coherent.held _ p h.slot.1
  cases h.slot.2.symm.trans hh
  rw [hz, h.addr.1, h.addr.2]

theorem readZone_spec (h : a.Coherent disk) {id : Int} (hid : 4 ≤ id) :
    wp diskSem (a.readZone id)
      (fun r disk' => disk' = disk ∧ r.1 = some (disk.zone id.toNat) ∧ r.2.map = a.map ∧ r.2.Coherent disk) disk := by
  unfold readZone
  rw [if_neg (by omega)]
  refine wp_seq (getBlock_spec h _) ?_
  rintro ⟨p, a'⟩ _ ⟨rfl, b, hgot⟩
  have hheap : a'.heap p = some b := hgot.slot.2
  simp only [hheap]
  exact wp_bind.mpr (wp_ret.mpr (wp_ret.mpr ⟨rfl, by rw [hgot.zones]; rfl, hgot.map, hgot.coherent⟩))

theorem writeZone_spec (h : a.Coherent disk) {id : Int} (hid : 4 ≤ id) (z : Zone) :
    wp diskSem (a.writeZone id z)
      (fun r disk' => disk'.zone = (fun i => if i = id.toNat then z else disk.zone i) ∧ r.map = a.map ∧
        r.Coherent disk') disk := by
  unfold writeZone
  rw [if_neg (by omega)]
  refine wp_seq (getBlock_spec h _) ?_
  rintro ⟨p, a'⟩ _ ⟨rfl, b, hgot⟩
  have hheap : a'.heap p = some b := hgot.slot.2
  simp only [hheap]
  refine wp_bind.mpr (wp_ret.mpr (wp_bind.mpr (writeBlockOp_spec (wp_ret.mpr ⟨?_, hgot.map, ?_⟩))))
  · funext i
    show (BlockArray.put _ b.c b.s _).zone i = _
    rw [hgot.addr.1, hgot.addr.2]
    exact zone_put_block z hgot.zones i
  · exact hgot.coherent.put hgot.slot _

/-- `format` empties the cache, so it is coherent without having been written through. -/
theorem format_spec :
    wp diskSem a.format
      (fun r disk' => disk'.zone = (fun i => if i < 8 then .zero else disk.zone i) ∧ r.Coherent disk') disk := by
  have hmap : ∃ m : Bitmap, setState .zero 4 dOccupied = some m := ⟨_, rfl⟩
  obtain ⟨m, hm⟩ := hmap
  unfold format
  refine wp_bind.mpr (writeBlockOp_spec ?_)
  rw [hm]
  exact wp_bind.mpr (wp_ret.mpr (wp_ret.mpr ⟨funext (zone_put_zero disk), .empty fun _ => rfl⟩))

end Alloc

/-- Each call keeps the cache coherent, and does to the zones of the disk what it does to an array of zones. -/
theorem ZoneCall.run_spec {a : Alloc} {disk : BlockArray} (h : a.Coherent disk) (x : ZoneCall) :
    wp diskSem (x.run a)
      (fun r disk' => r.1 = (x.effect disk.zone).1 ∧ disk'.zone = (x.effect disk.zone).2 ∧ r.2.Coherent disk')
      disk := by
  cases x with
  | read id =>
    refine wp_mono (Alloc.readZone_spec h id.property.1) ?_
    rintro r _ ⟨rfl, hr, -, hcoh⟩
    exact ⟨hr, rfl, hcoh⟩
  | write id z =>
    refine wp_seq (Alloc.writeZone_spec h id.property.1 z) ?_
    rintro r disk' ⟨hz, -, hcoh⟩
    exact wp_ret.mpr ⟨rfl, hz, hcoh⟩
  | format =>
    refine wp_seq Alloc.format_spec ?_
    rintro r disk' ⟨hz, hcoh⟩
    exact wp_ret.mpr ⟨rfl, hz, hcoh⟩

/-- A sequence of calls, with their results. -/
def runCalls (a : Alloc) : List ZoneCall → BlockM (List (Option Zone) × Alloc)
  | [] => .ret ([], a)
  | x :: xs => do
    let (r, a) ← x.run a
    let (rs, a) ← runCalls a xs
    .ret (r :: rs, a)

/-- The bytes of zone `id` after some calls: those written last, zero if `format` cleared it later, or the
    initial ones. -/
def zoneAfter (Z : Nat → Zone) (calls : List ZoneCall) (id : Nat) : Zone :=
  calls.foldl (fun z x => match x with
    | .read _ => z
    | .write id' z' => if id = id'.val.toNat then z' else z
    | .format => if id < 8 then .zero else z) (Z id)

theorem zoneAfter_cons (Z : Nat → Zone) (x : ZoneCall) (xs : List ZoneCall) :
    zoneAfter Z (x :: xs) = zoneAfter (x.effect Z).2 xs := by
  funext id
  cases x <;> rfl

/-- The results of calls: each read returns what was written last before it. -/
def resultsOf (Z : Nat → Zone) (calls : List ZoneCall) : List (Option Zone) :=
  calls.mapIdx fun i x => match x with
    | .read id => some (zoneAfter Z (calls.take i) id.val.toNat)
    | _ => none

theorem resultsOf_cons (Z : Nat → Zone) (x : ZoneCall) (xs : List ZoneCall) :
    resultsOf Z (x :: xs) = (x.effect Z).1 :: resultsOf (x.effect Z).2 xs := by
  unfold resultsOf
  rw [List.mapIdx_cons]
  refine congrArg₂ List.cons ?_ (congrArg (List.mapIdx · xs) ?_)
  · cases x <;> rfl
  · funext i y
    cases y <;> simp [zoneAfter_cons]

theorem runCalls_spec {a : Alloc} {disk : BlockArray} (h : a.Coherent disk) (calls : List ZoneCall) :
    wp diskSem (runCalls a calls)
      (fun r disk' => r.1 = resultsOf disk.zone calls ∧ disk'.zone = zoneAfter disk.zone calls ∧ r.2.Coherent disk')
      disk := by
  induction calls generalizing a disk with
  | nil => exact wp_ret.mpr ⟨rfl, rfl, h⟩
  | cons x xs ih =>
    unfold runCalls
    refine wp_seq (x.run_spec h) ?_
    rintro ⟨r, a'⟩ disk' ⟨hr, hz, hcoh⟩
    refine wp_seq (ih hcoh) ?_
    rintro ⟨rs, a''⟩ disk'' ⟨hrs, hz', hcoh'⟩
    refine wp_ret.mpr ⟨?_, ?_, hcoh'⟩
    · show r :: rs = _
      rw [resultsOf_cons, ← hz, ← hrs]
      exact congrArg (· :: rs) hr
    · rw [zoneAfter_cons, ← hz, hz']

theorem Alloc.Coherent.setMap {a : Alloc} {disk : BlockArray} (h : a.Coherent disk) (map : Bitmap) :
    { a with map := map }.Coherent disk := ⟨h.held, h.once, h.inj, h.packed, h.fresh⟩

/-- A process that starts has the bitmap of block 0. -/
theorem init_spec {disk : BlockArray} : wp diskSem Alloc.start.init
    (fun a disk' => disk' = disk ∧ a.Coherent disk ∧ a.map = (disk 0 0).sub 0 256) disk := by
  unfold Alloc.init
  refine wp_seq (Alloc.getBlock_spec (.empty fun _ => rfl) 0) ?_
  rintro ⟨p, a⟩ _ ⟨rfl, b, hgot⟩
  have hheap : a.heap p = some b := hgot.slot.2
  simp only [hheap]
  exact wp_bind.mpr (wp_ret.mpr (wp_ret.mpr ⟨rfl, hgot.coherent.setMap _, by rw [hgot.zones]; rfl⟩))

/-- The cache is coherent: whatever is on the disk when it starts, every sequence of calls returns, each read
    returns the bytes written last to its zone, and the disk holds exactly these bytes after the calls. No
    block is in two slots, every cached block has the disk's bytes, and no two zones share bytes. -/
theorem cache_coherent (disk : BlockArray) (calls : List ZoneCall) :
    wp diskSem (do runCalls (← Alloc.start.init) calls)
      (fun r disk' => r.1 = resultsOf disk.zone calls ∧ (∀ id, disk'.zone id = zoneAfter disk.zone calls id) ∧
        (∀ i j p q b b', r.2.Slot i p b → r.2.Slot j q b' → b.c = b'.c → b.s = b'.s → i = j) ∧
        (∀ i p, r.2.bCache i = some p → ∃ b, r.2.heap p = some b ∧ b.zones = disk' b.c b.s) ∧
        ∀ id id', getC id = getC id' → getS id = getS id' → id % 8 = id' % 8 → id = id') disk := by
  refine wp_seq init_spec ?_
  rintro a _ ⟨rfl, h, -⟩
  refine wp_mono (runCalls_spec h calls) ?_
  rintro r disk' ⟨hr, hz, hcoh⟩
  refine ⟨hr, fun id => by rw [hz], hcoh.once, fun i p hp => ?_, fun id id' => zone_addr_inj⟩
  obtain ⟨b, hh, hb, -⟩ := hcoh.held i p hp
  exact ⟨b, hh, hb⟩

end MiniFs
