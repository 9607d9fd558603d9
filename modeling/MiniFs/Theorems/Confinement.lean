import MiniFs.Theorems.BlockStore

/-! # Disk writes

`write_disk` with a client that sends chunks of any lengths: however many rounds it asks for, the bytes that it sends
go into the block that it has named, up to the block's end. -/

namespace MiniFs
open Interact Memory

/-- What a client has sent and received. -/
structure Traffic where
  chunks : List (List Byte)
  replies : List Msg

/-- The disk server with a client that takes every message and sends at most as many bytes as are asked for. -/
def chunkSem : Sem noOps Traffic where
  op e _ _ := e.elim
  write m t o := o = some { t with replies := t.replies ++ [m] }
  read n t o := ∃ data : List Byte, data.length ≤ n ∧ o = some (data, { t with chunks := t.chunks ++ [data] })

section
variable {d : Disk} {t : Traffic} {end_ k offset : Nat} {msg : Str}

theorem sendMsg_chunk {Q : Unit → Traffic → Prop} (hlen : msg.length < bufferSize)
    (h : Q () { t with replies := t.replies ++ [packet msg] }) : wp chunkSem (sendMsg msg) Q t := by
  unfold sendMsg
  rw [List.take_of_length_le (by omega)]
  refine wp_write.mpr ?_
  rintro o rfl
  exact ⟨_, rfl, wp_ret.mpr h⟩

theorem getData_chunk {Q : List Byte → Traffic → Prop}
    (h : ∀ data, data.length ≤ bufferSize → Q data { t with chunks := t.chunks ++ [data] }) :
    wp chunkSem (getData bufferSize) Q t := by
  refine wp_read.mpr ?_
  rintro o ⟨data, hlen, rfl⟩
  exact ⟨data, _, rfl, wp_ret.mpr (h data (by simpa using hlen))⟩

theorem if_pos_writeBytes {l : List Byte} {len : Nat} :
    (if len > 0 then d.writeBytes (l.take len) else d) = d.writeBytes (l.take len) := by
  split
  · rfl
  · obtain rfl : len = 0 := by omega
    rw [List.take_zero]
    exact congrArg (Disk.mk · d.pos) d.writeBytes_nil.symm

/-- The rounds of `write_disk` write what they receive, up to the end of the block. -/
theorem writeDiskLoop_chunk (hpos : 0 < k → d.pos = offset) (hend : offset ≤ end_) :
    wp chunkSem (writeDiskLoop end_ k offset d) (fun d' t' => ∃ chunks, chunks.length = k ∧
      t' = ⟨t.chunks ++ chunks, t.replies ++ List.replicate k (packet (lit "EXPECT")) ++ [packet (lit "OVER")]⟩ ∧
      d'.file = (d.writeBytes (chunks.flatten.take (end_ - offset))).file) t := by
  induction k generalizing offset d t with
  | zero =>
    refine wp_bind.mpr (sendMsg_chunk (by decide) (wp_ret.mpr ⟨[], rfl, ?_, ?_⟩))
    · simp
    · simp [Disk.writeBytes_nil]
  | succ k ih =>
    unfold writeDiskLoop
    refine wp_bind.mpr (sendMsg_chunk (by decide) (wp_bind.mpr (getData_chunk fun data _ => ?_)))
    have hlen : (if offset + data.length > end_ then end_ - offset else data.length) = min data.length (end_ - offset) := by
      split <;> omega
    dsimp only
    rw [hlen, if_pos_writeBytes]
    have htake : (data.take (min data.length (end_ - offset))).length = min data.length (end_ - offset) := by
      rw [List.length_take]
      omega
    refine wp_mono (ih ?_ (by omega)) ?_
    · intro _
      rw [Disk.writeBytes, htake, hpos (Nat.succ_pos k)]
    · rintro d' t' ⟨chunks, rfl, rfl, hfile⟩
      refine ⟨data :: chunks, rfl, ?_, ?_⟩
      · simp [List.replicate_succ]
      · have hdata : data.take (min data.length (end_ - offset)) = data.take (end_ - offset) := by
          rw [Nat.min_comm, ← List.take_take, List.take_length]
        have hleft : end_ - (offset + min data.length (end_ - offset)) = end_ - offset - data.length := by omega
        rw [hfile, Disk.writeBytes_append, List.flatten_cons, List.take_append, hdata, hleft]

end

theorem getOffset_int32 (c s : Int32) : getOffset (toUnsigned c.toInt) (toUnsigned s.toInt) =
    if 0 ≤ c.toInt ∧ c.toInt < 128 ∧ 0 ≤ s.toInt ∧ s.toInt < 32 then
      some (512 * (32 * c.toInt.toNat + s.toInt.toNat)) else none := by
  have hc := c.toInt_lt
  have hc' := c.le_toInt
  have hs := s.toInt_lt
  have hs' := s.le_toInt
  unfold getOffset toUnsigned cylinders sectors blockSize
  split
  · rw [if_neg (by omega)]
  · rw [if_pos (by omega)]
    congr 1
    omega

/-- The bytes that a client sends go into the block that its request names and nowhere else, and no more of them than
    the block holds. -/
theorem write_disk_confined (d : Disk) (c s n : Int32) :
    wp chunkSem (writeDisk d (toUnsigned c.toInt) (toUnsigned s.toInt) n.toInt) (fun d' t =>
      if 0 ≤ c.toInt ∧ c.toInt < 128 ∧ 0 ≤ s.toInt ∧ s.toInt < 32 then
        ∀ o, d'.file o =
          if 512 * (32 * c.toInt + s.toInt) ≤ (o : Int) ∧
              (o : Int) < 512 * (32 * c.toInt + s.toInt) + min t.chunks.flatten.length 512 then
            t.chunks.flatten.getD (o - (512 * (32 * c.toInt + s.toInt)).toNat) 0
          else d.file o
      else d'.file = d.file ∧ t.replies = [packet (lit "OVER")]) ⟨[], []⟩ := by
  unfold writeDisk
  rw [getOffset_int32]
  by_cases hin : 0 ≤ c.toInt ∧ c.toInt < 128 ∧ 0 ≤ s.toInt ∧ s.toInt < 32
  · simp only [if_pos hin]
    refine wp_mono (writeDiskLoop_chunk (fun _ => rfl) (Nat.le_add_right _ _)) ?_
    rintro d' t ⟨chunks, -, rfl, hfile⟩ o
    have hoff : 512 * (32 * c.toInt.toNat + s.toInt.toNat) = (512 * (32 * c.toInt + s.toInt)).toNat := by omega
    rw [hfile, Disk.writeBytes_file, Nat.add_sub_cancel_left, hoff, List.length_take, Nat.min_comm]
    dsimp only [List.nil_append]
    have hlen : min chunks.flatten.length blockSize = min chunks.flatten.length 512 := rfl
    by_cases ho : (512 * (32 * c.toInt + s.toInt)).toNat ≤ o ∧
        o < (512 * (32 * c.toInt + s.toInt)).toNat + min chunks.flatten.length blockSize
    · rw [if_pos ho, if_pos (by omega), List.getD_eq_getElem?_getD, List.getD_eq_getElem?_getD,
        List.getElem?_take_of_lt (by omega)]
    · rw [if_neg ho, if_neg (by omega)]
  · simp only [if_neg hin]
    refine wp_mono (writeDiskLoop_chunk (fun h => absurd h (Nat.lt_irrefl 0)) (Nat.le_refl _)) ?_
    rintro d' t ⟨chunks, hlen, rfl, hfile⟩
    rw [List.eq_nil_of_length_eq_zero hlen] at hfile
    exact ⟨hfile.trans d.writeBytes_nil, rfl⟩

end MiniFs
