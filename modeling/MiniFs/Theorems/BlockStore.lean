import MiniFs.DiskMgr
import MiniFs.Theorems.Messages

/-! # The block store

The block transfers of the file server and the loop of the disk server, over two FIFO queues, are an array
of blocks: `block_store` is about every schedule of the two. A session for each call is what both loops
follow. -/

namespace MiniFs
open Interact Memory

/-- The contents of the disk: the 512 bytes of each block `(c, s)`. -/
abbrev BlockArray := Nat → Nat → Bytes 512

/-- The array after block `(c, s)` is overwritten. -/
def BlockArray.put (a : BlockArray) (c s : Nat) (z : Bytes 512) : BlockArray :=
  fun c' s' => if c' = c ∧ s' = s then z else a c' s'

/-- Where a block starts in the disk file. -/
def blockOff (c s : Nat) : Nat := blockSize * (c * sectors + s)

def Disk.block (d : Disk) : BlockArray := fun c s j => d.file (blockOff c s + j.val)

theorem blockOff_disjoint {c s c' s' : Nat} (hs : s < sectors) (hs' : s' < sectors) (h : ¬(c' = c ∧ s' = s)) :
    blockOff c' s' + blockSize ≤ blockOff c s ∨ blockOff c s + blockSize ≤ blockOff c' s' := by
  unfold blockOff blockSize sectors at *
  omega

/-! ## Bytes of the disk file -/

theorem Disk.length_readBytes (d : Disk) (n : Nat) : (d.readBytes n).length = n := by simp [readBytes]

theorem Disk.readBytes_add (d : Disk) (n m : Nat) :
    d.readBytes (n + m) = d.readBytes n ++ { d with pos := d.pos + n }.readBytes m := by
  simp only [readBytes, List.range_add, List.map_append, List.map_map, Function.comp_def, Nat.add_assoc]

theorem Disk.writeBytes_file (d : Disk) (off : Nat) (l : List Byte) (o : Nat) :
    ((d.lseek off).writeBytes l).file o = if off ≤ o ∧ o < off + l.length then l.getD (o - off) 0 else d.file o := rfl

theorem Disk.writeBytes_nil (d : Disk) : (d.writeBytes []).file = d.file := by
  funext o
  simp only [writeBytes, List.length_nil, Nat.add_zero]
  split
  · omega
  · rfl

theorem Disk.writeBytes_append (d : Disk) (l m : List Byte) :
    ((d.writeBytes l).writeBytes m).file = (d.writeBytes (l ++ m)).file := by
  funext o
  simp only [writeBytes, List.length_append, List.getD_eq_getElem?_getD, List.getElem?_append]
  by_cases h1 : d.pos ≤ o ∧ o < d.pos + l.length
  · rw [if_neg (by omega), if_pos h1, if_pos (by omega), if_pos (by omega)]
  · by_cases h2 : d.pos + l.length ≤ o ∧ o < d.pos + l.length + m.length
    · rw [if_pos h2, if_pos (by omega), if_neg (by omega), show o - (d.pos + l.length) = o - d.pos - l.length by omega]
    · rw [if_neg h2, if_neg h1, if_neg (by omega)]

/-- Reading a block's bytes and laying them over any object gives the block. -/
theorem Disk.blit_readBytes (d : Disk) (c s : Nat) (z : Bytes 512) :
    z.blit 0 ((d.lseek (blockOff c s)).readBytes blockSize) = d.block c s := by
  funext j
  have hj : (j : Nat) < blockSize := j.isLt
  simp [Bytes.blit, Disk.readBytes, Disk.lseek, Disk.block, List.getD_eq_getElem?_getD, hj]

/-- Writing an object's bytes to a block puts it there. -/
theorem Disk.block_writeBytes (d : Disk) {c s : Nat} (hs : s < sectors) (z : Bytes 512) {c' s' : Nat}
    (hs' : s' < sectors) :
    ((d.lseek (blockOff c s)).writeBytes (z.slice 0 blockSize)).block c' s' = d.block.put c s z c' s' := by
  funext j
  have hj : (j : Nat) < blockSize := j.isLt
  have hlen : (z.slice 0 blockSize).length = blockSize := z.length_slice 0 blockSize
  unfold BlockArray.put
  by_cases h : c' = c ∧ s' = s
  · obtain ⟨rfl, rfl⟩ := h
    have hget : z.get j.val = z j := by simp [Bytes.get]
    rw [if_pos ⟨rfl, rfl⟩, Disk.block, writeBytes_file, if_pos (by omega), Nat.add_sub_cancel_left,
      Bytes.getD_slice hj, Nat.zero_add, hget]
  · have := blockOff_disjoint hs hs' h
    rw [if_neg h, Disk.block, writeBytes_file, if_neg (by omega)]
    rfl

/-! ## The sessions of the two transfers -/

/-- The messages of a transfer of `n` full buffers. -/
def pieces : Nat → List Byte → List Msg
  | 0, _ => []
  | n + 1, l => l.take bufferSize :: pieces n (l.drop bufferSize)

/-- Ask for each of the messages and receive it. -/
def receives : List Msg → Session
  | [] => .done
  | m :: ms => .say (packet (lit "EXPECT")) (.hear m (receives ms))

/-- Send each of the messages when asked for it. -/
def transmits (A : Session) : List Msg → Session
  | [] => A
  | m :: ms => .hear (packet (lit "EXPECT")) (.say m (transmits A ms))

def readRequestLine (c s : Nat) : Str := line [lit "R", numeral c, numeral s]

def writeRequestLine (c s : Nat) : Str := line [lit "W", numeral c, numeral s, numeral 4]

/-- What the file server exchanges with the disk server to read the 512 bytes `l`. -/
def readSession (c s : Nat) (l : List Byte) : Session :=
  .say (packet (readRequestLine c s)) (.hear (packet (lit "FOLLOW 512")) (receives (pieces 4 l)))

/-- What the file server exchanges with the disk server to write the 512 bytes `l`. -/
def writeSession (c s : Nat) (l : List Byte) : Session :=
  .say (packet (writeRequestLine c s)) (transmits (.hear (packet (lit "OVER")) .done) (pieces 4 l))

theorem pieces_ne_nil {n : Nat} {l : List Byte} (hl : l.length = bufferSize * n) : ∀ m ∈ pieces n l, m ≠ [] := by
  induction n generalizing l with
  | zero => exact fun m hm => absurd hm List.not_mem_nil
  | succ n ih =>
    intro m hm
    rcases List.mem_cons.mp hm with rfl | hm
    · refine List.ne_nil_of_length_pos ?_
      rw [List.length_take, hl]
      unfold bufferSize
      omega
    · refine ih ?_ m hm
      rw [List.length_drop, hl]
      unfold bufferSize
      omega

theorem receives_closing {ms : List Msg} (hms : ∀ m ∈ ms, m ≠ []) : (receives ms).Closing ∧ ¬(receives ms).Listens := by
  induction ms with
  | nil => exact ⟨Session.closing_done, Session.not_done_listens⟩
  | cons m ms ih =>
    obtain ⟨hc, hl⟩ := ih fun m' hm' => hms m' (List.mem_cons_of_mem _ hm')
    exact ⟨(hc.hear hl (hms m List.mem_cons_self)).say (Session.hear_listens _ _) (packet_ne_nil _),
      Session.not_say_listens _ _⟩

theorem transmits_closing {A : Session} (hA : A.Closing) (hl : A.Listens) {ms : List Msg} (hms : ∀ m ∈ ms, m ≠ []) :
    (transmits A ms).Closing ∧ (transmits A ms).Listens := by
  induction ms with
  | nil => exact ⟨hA, hl⟩
  | cons m ms ih =>
    obtain ⟨hc, hl⟩ := ih fun m' hm' => hms m' (List.mem_cons_of_mem _ hm')
    exact ⟨(hc.say hl (hms m List.mem_cons_self)).hear (Session.not_say_listens _ _) (packet_ne_nil _),
      Session.hear_listens _ _⟩

theorem readSession_closing (c s : Nat) {l : List Byte} (hl : l.length = blockSize) : (readSession c s l).Closing := by
  obtain ⟨hc, hn⟩ := receives_closing (pieces_ne_nil (n := 4) hl)
  exact (hc.hear hn (packet_ne_nil _)).say (Session.hear_listens _ _) (packet_ne_nil _)

theorem writeSession_closing (c s : Nat) {l : List Byte} (hl : l.length = blockSize) : (writeSession c s l).Closing := by
  have hover := Session.closing_done.hear Session.not_done_listens (packet_ne_nil (lit "OVER"))
  obtain ⟨hc, hn⟩ := transmits_closing hover (Session.hear_listens _ _) (pieces_ne_nil (n := 4) hl)
  exact hc.say hn (packet_ne_nil _)

/-! ## The client's side -/

/-- The test of `read_block`. -/
def Accepts (reply : Str) : Prop := reply.take 7 = lit "FOLLOW " ∧ atoi (reply.drop 7) = blockSize

instance (reply : Str) : Decidable (Accepts reply) := inferInstanceAs (Decidable (_ ∧ _))

section
variable {S : Sig} {σ : Type} {X : Sem S σ} {t : σ} {A : Session}

theorem length_take_piece {l : List Byte} {n : Nat} (h : l.length = bufferSize * (n + 1)) :
    (l.take bufferSize).length = bufferSize ∧ (l.drop bufferSize).length = bufferSize * n := by
  rw [List.length_take, List.length_drop, h]
  unfold bufferSize
  omega

theorem readChunks_talk {n fuel : Nat} {l done : List Byte} (hl : l.length = bufferSize * n) (hf : n ≤ fuel) :
    wp X.talk (readChunks fuel (bufferSize * n : Nat) done) (fun r u => u.2 = .done ∧ r = done ++ l)
      (t, receives (pieces n l)) := by
  induction n generalizing fuel l done with
  | zero =>
    have hnil : l = [] := by simpa using hl
    subst hnil
    cases fuel <;> exact wp_ret.mpr ⟨rfl, (List.append_nil done).symm⟩
  | succ n ih =>
    obtain ⟨fuel, rfl⟩ : ∃ f, fuel = f + 1 := ⟨fuel - 1, by omega⟩
    have hm := (length_take_piece hl).1
    have hrest := (length_take_piece hl).2
    have hpos : ((bufferSize * (n + 1) : Nat) : Int) > 0 := by unfold bufferSize; omega
    have hleft : ((bufferSize * (n + 1) : Nat) : Int) - (l.take bufferSize).length = (bufferSize * n : Nat) := by
      rw [hm]
      unfold bufferSize
      omega
    unfold readChunks
    rw [if_pos hpos]
    refine wp_bind.mpr (sendMsg_talk (by decide) (wp_bind.mpr (getData_talk (by omega) ?_ ?_)))
    · unfold bufferSize at *
      omega
    · rw [hleft]
      refine wp_mono (ih hrest (by omega)) ?_
      rintro r u ⟨hd, rfl⟩
      exact ⟨hd, by rw [List.append_assoc, List.take_append_drop]⟩

theorem writeChunks_talk {n fuel : Nat} {l : List Byte} {Q : Unit → σ × Session → Prop}
    (hl : l.length = bufferSize * n) (hf : n ≤ fuel) (h : Q () (t, A)) :
    wp X.talk (writeChunks fuel l) Q (t, transmits A (pieces n l)) := by
  induction n generalizing fuel l with
  | zero =>
    have hnil : l = [] := by simpa using hl
    subst hnil
    cases fuel <;> exact wp_ret.mpr h
  | succ n ih =>
    obtain ⟨fuel, rfl⟩ : ∃ f, fuel = f + 1 := ⟨fuel - 1, by omega⟩
    obtain ⟨hm, hrest⟩ := length_take_piece hl
    obtain ⟨b, l, rfl⟩ := List.exists_cons_of_length_pos (l := l) (by unfold bufferSize at hl; omega)
    unfold writeChunks
    refine wp_bind.mpr (getMsgStr_talk (by decide) (by decide) ?_)
    rw [if_neg (by simp)]
    exact wp_bind.mpr (sendData_talk (by omega) (ih hrest (by omega)))

theorem readRequest_eq {c s : Nat} (hc : c < cylinders) (hs : s < sectors) :
    readRequest c s = some (readRequestLine c s) := by
  have h1 : (numeral c).length ≤ 3 := length_numeral_le (by unfold cylinders at hc; omega) (by omega)
  have h2 : (numeral s).length ≤ 3 := length_numeral_le (by unfold sectors at hs; omega) (by omega)
  have hR : catStr initStr (lit "R ") = lit "R " := by decide
  have hcat : catStr (lit "R " ++ numeral c) (lit " ") = lit "R " ++ numeral c ++ lit " " := by
    unfold catStr
    rw [List.take_of_length_le]
    simp [lit, bufferSize]
    omega
  unfold readRequest
  rw [hR, catInt_ofNat (by simp [lit, bufferSize]; omega)]
  simp only [Option.bind_eq_bind, Option.bind_some, hcat]
  rw [catInt_ofNat (by simp [lit, bufferSize]; omega)]
  simp [readRequestLine, line, lit]

theorem writeRequest_eq {c s : Nat} (hc : c < cylinders) (hs : s < sectors) :
    writeRequest c s = some (writeRequestLine c s) := by
  have h1 : (numeral c).length ≤ 3 := length_numeral_le (by unfold cylinders at hc; omega) (by omega)
  have h2 : (numeral s).length ≤ 3 := length_numeral_le (by unfold sectors at hs; omega) (by omega)
  have h4 : (numeral 4).length = 1 := by decide
  have hW : catStr initStr (lit "W ") = lit "W " := by decide
  have hcat : catStr (lit "W " ++ numeral c) (lit " ") = lit "W " ++ numeral c ++ lit " " := by
    unfold catStr
    rw [List.take_of_length_le]
    simp [lit, bufferSize]
    omega
  have hcat' : catStr (lit "W " ++ numeral c ++ lit " " ++ numeral s) (lit " ") =
      lit "W " ++ numeral c ++ lit " " ++ numeral s ++ lit " " := by
    unfold catStr
    rw [List.take_of_length_le]
    simp [lit, bufferSize]
    omega
  have hn : (((blockSize : Int) - 1) / (bufferSize : Int) + 1) = (4 : Nat) := by decide
  unfold writeRequest
  rw [hW, catInt_ofNat (by simp [lit, bufferSize]; omega)]
  simp only [Option.bind_eq_bind, Option.bind_some, hcat]
  rw [catInt_ofNat (by simp [lit, bufferSize]; omega)]
  simp only [Option.bind_some, hcat', hn]
  rw [catInt_ofNat (by simp [lit, bufferSize, h4]; omega)]
  simp [writeRequestLine, line, lit]

/-- A reply that `read_block` accepts is followed by the block. -/
theorem readBlock_accepts {c s : Nat} (hc : c < cylinders) (hs : s < sectors) (dest : Block) {reply : Str} {l : List Byte}
    (hacc : Accepts reply) (hnul : NulFree reply) (hlen : reply.length < bufferSize - 1) (hl : l.length = blockSize) :
    wp X.talk (readBlock c s dest) (fun r u => u.2 = .done ∧ r = { zones := dest.zones.blit 0 l, c := c, s := s })
      (t, .say (packet (readRequestLine c s)) (.hear (packet reply) (receives (pieces 4 l)))) := by
  unfold readBlock
  rw [readRequest_eq hc hs]
  refine wp_bind.mpr (wp_ret.mpr (wp_bind.mpr (sendStr_talk (wp_bind.mpr ?_))))
  refine getMsgStr_talk hnul hlen ?_
  have hnum : ((blockSize : Nat) : Int) = (bufferSize * 4 : Nat) := by decide
  rw [if_neg (fun hrej => not_and_or.mpr hrej hacc), hnum]
  refine wp_seq (readChunks_talk (by rw [hl]; decide) (by decide)) ?_
  rintro r u ⟨hd, rfl⟩
  exact wp_ret.mpr ⟨hd, rfl⟩

/-- After any other reply it returns at once. -/
theorem readBlock_rejects {c s : Nat} (hc : c < cylinders) (hs : s < sectors) (dest : Block) {reply : Str}
    (hacc : ¬Accepts reply) (hnul : NulFree reply) (hlen : reply.length < bufferSize - 1) :
    wp X.talk (readBlock c s dest) (fun r u => u.2 = A ∧ r = dest)
      (t, .say (packet (readRequestLine c s)) (.hear (packet reply) A)) := by
  unfold readBlock
  rw [readRequest_eq hc hs]
  refine wp_bind.mpr (wp_ret.mpr (wp_bind.mpr (sendStr_talk (wp_bind.mpr ?_))))
  refine getMsgStr_talk hnul hlen ?_
  rw [if_pos (not_and_or.mp hacc)]
  exact wp_ret.mpr ⟨rfl, rfl⟩

theorem readBlock_talk {c s : Nat} (hc : c < cylinders) (hs : s < sectors) (dest : Block) {l : List Byte}
    (hl : l.length = blockSize) :
    wp X.talk (readBlock c s dest) (fun r u => u.2 = .done ∧ r = { zones := dest.zones.blit 0 l, c := c, s := s })
      (t, readSession c s l) := readBlock_accepts hc hs dest (by decide) (by decide) (by decide) hl

theorem writeBlock_talk {b : Block} (hc : b.c < cylinders) (hs : b.s < sectors) :
    wp X.talk (writeBlock b) (fun _ u => u.2 = .done) (t, writeSession b.c b.s (b.zones.slice 0 blockSize)) := by
  unfold writeBlock
  rw [writeRequest_eq hc hs]
  have hlen : (b.zones.slice 0 blockSize).length = bufferSize * 4 := b.zones.length_slice 0 blockSize
  have hfuel : 4 ≤ blockSize := by decide
  refine wp_bind.mpr (wp_ret.mpr (wp_bind.mpr (sendStr_talk (wp_bind.mpr (writeChunks_talk hlen hfuel ?_)))))
  exact wp_bind.mpr (getMsgStr_talk (by decide) (by decide) (wp_ret.mpr rfl))

end

/-! ## The server's side -/

/-- The disk server has no operations besides its socket. -/
def noSem : Sem noOps Unit where
  op e := nomatch e
  write _ _ o := o = none
  read _ _ o := o = none

theorem readDiskLoop_talk {n fuel : Nat} {d : Disk} (hf : n ≤ fuel) :
    wp noSem.talk (readDiskLoop fuel (bufferSize * n) d) (fun d' u => u.2 = .done ∧ d'.file = d.file)
      ((), (receives (pieces n (d.readBytes (bufferSize * n)))).dual) := by
  induction n generalizing fuel d with
  | zero => cases fuel <;> exact wp_ret.mpr ⟨rfl, rfl⟩
  | succ n ih =>
    obtain ⟨fuel, rfl⟩ : ∃ f, fuel = f + 1 := ⟨fuel - 1, by omega⟩
    have hsplit : d.readBytes (bufferSize * (n + 1)) =
        d.readBytes bufferSize ++ { d with pos := d.pos + bufferSize }.readBytes (bufferSize * n) := by
      rw [← Disk.readBytes_add, Nat.mul_succ, Nat.add_comm]
    have hlen := d.length_readBytes bufferSize
    have hmin : min bufferSize (bufferSize * (n + 1)) = bufferSize := by unfold bufferSize; omega
    have hneg : ¬((bufferSize : Nat) : Int) < 0 := by omega
    have hleft : bufferSize * (n + 1) - ((bufferSize : Nat) : Int).toNat = bufferSize * n := by
      unfold bufferSize
      omega
    unfold readDiskLoop
    rw [if_pos (by unfold bufferSize; omega), hsplit, pieces, List.take_left' hlen, List.drop_left' hlen]
    refine wp_bind.mpr (getMsg_talk (by decide) (by decide) ?_)
    simp only [hmin]
    refine wp_bind.mpr (sendData_talk (by rw [hlen]) ?_)
    rw [hlen, if_neg hneg, hleft]
    exact ih (by omega)

theorem writeDiskLoop_talk {n offset : Nat} {d : Disk} {l : List Byte} (hl : l.length = bufferSize * n)
    (hpos : d.pos = offset) :
    wp noSem.talk (writeDiskLoop (offset + bufferSize * n) n offset d)
      (fun d' u => u.2 = .done ∧ d'.file = (d.writeBytes l).file)
      ((), (transmits (.hear (packet (lit "OVER")) .done) (pieces n l)).dual) := by
  induction n generalizing offset d l with
  | zero =>
    have hnil : l = [] := by simpa using hl
    subst hnil
    exact wp_bind.mpr (sendMsg_talk (by decide) (wp_ret.mpr ⟨rfl, d.writeBytes_nil.symm⟩))
  | succ n ih =>
    obtain ⟨hm, hrest⟩ := length_take_piece hl
    have hend : ¬offset + bufferSize > offset + bufferSize * (n + 1) := by unfold bufferSize; omega
    have hend' : offset + bufferSize * (n + 1) = offset + bufferSize + bufferSize * n := by
      unfold bufferSize
      omega
    have hgt : bufferSize > 0 := by decide
    unfold writeDiskLoop
    refine wp_bind.mpr (sendMsg_talk (by decide) (wp_bind.mpr (getData_talk (by omega) (by omega) ?_)))
    simp only [hm, if_neg hend, if_pos hgt]
    rw [List.take_of_length_le (by omega), hend']
    refine wp_mono (ih hrest ?_) ?_
    · simp only [Disk.writeBytes, hm, hpos]
    · rintro d' u ⟨hd, hfile⟩
      refine ⟨hd, ?_⟩
      rw [hfile, Disk.writeBytes_append, List.take_append_drop]

theorem toUnsigned_numeral {n : Nat} (h : n < 10 ^ 4) : toUnsigned (atoi (numeral n)) = n := by
  rw [atoi_numeral (by omega)]
  unfold toUnsigned
  omega

theorem getOffset_eq {c s : Nat} (hc : c < cylinders) (hs : s < sectors) : getOffset c s = some (blockOff c s) := by
  unfold getOffset
  rw [if_neg (by omega)]
  rfl

theorem readDisk_talk {d : Disk} {c s : Nat} (hc : c < cylinders) (hs : s < sectors) :
    wp noSem.talk (readDisk d c s) (fun d' u => u.2 = .done ∧ d'.file = d.file)
      ((), (Session.hear (packet (lit "FOLLOW 512"))
        (receives (pieces 4 ((d.lseek (blockOff c s)).readBytes blockSize)))).dual) := by
  have hreply : catInt (catStr initStr (lit "FOLLOW ")) blockSize = some (lit "FOLLOW 512") := by decide
  unfold readDisk
  rw [getOffset_eq hc hs]
  simp only [hreply]
  exact wp_bind.mpr (wp_ret.mpr (wp_bind.mpr (sendStr_talk (readDiskLoop_talk (n := 4) (by decide)))))

theorem writeDisk_talk {d : Disk} {c s : Nat} (hc : c < cylinders) (hs : s < sectors) {l : List Byte}
    (hl : l.length = blockSize) :
    wp noSem.talk (writeDisk d c s 4)
      (fun d' u => u.2 = .done ∧ d'.file = ((d.lseek (blockOff c s)).writeBytes l).file)
      ((), (transmits (.hear (packet (lit "OVER")) .done) (pieces 4 l)).dual) := by
  unfold writeDisk
  rw [getOffset_eq hc hs]
  exact writeDiskLoop_talk (n := 4) (by rw [hl]; decide) rfl

theorem word_lit {s : String} (h : (lit s).all (fun c => c != 0 && !isspace c) = true) (hne : lit s ≠ []) : Word (lit s) := by
  have hall : ∀ c ∈ lit s, c ≠ 0 ∧ isspace c = false := fun c hc => by
    have := List.all_eq_true.mp h c hc
    simpa using this
  exact ⟨hne, fun c hc => (hall c hc).2, fun c hc => (hall c hc).1⟩

theorem word_readRequest (c s : Nat) : ∀ w ∈ [lit "R", numeral c, numeral s], Word w := by
  intro w hw
  simp only [List.mem_cons, List.not_mem_nil, or_false] at hw
  rcases hw with rfl | rfl | rfl
  · exact word_lit (by decide) (by decide)
  · exact word_numeral c
  · exact word_numeral s

theorem word_writeRequest (c s : Nat) : ∀ w ∈ [lit "W", numeral c, numeral s, numeral 4], Word w := by
  intro w hw
  simp only [List.mem_cons, List.not_mem_nil, or_false] at hw
  rcases hw with rfl | rfl | rfl | rfl
  · exact word_lit (by decide) (by decide)
  · exact word_numeral c
  · exact word_numeral s
  · exact word_numeral 4

theorem nulFree_line {ws : List Str} (h : ∀ w ∈ ws, Word w) : NulFree (line ws) := by
  induction ws with
  | nil => exact .nil
  | cons w ws ih =>
    have hw := (h w List.mem_cons_self).nulFree
    have hws := ih fun v hv => h v (List.mem_cons_of_mem _ hv)
    cases ws with
    | nil => simpa [line] using hw
    | cons v vs =>
      have hsep : NulFree [32] := by decide
      simpa [line] using hw.append (hsep.append hws)

theorem length_readRequestLine {c s : Nat} (hc : c < cylinders) (hs : s < sectors) :
    (readRequestLine c s).length < bufferSize - 1 := by
  have h1 : (numeral c).length ≤ 3 := length_numeral_le (by unfold cylinders at hc; omega) (by omega)
  have h2 : (numeral s).length ≤ 3 := length_numeral_le (by unfold sectors at hs; omega) (by omega)
  simp [readRequestLine, line, lit, bufferSize]
  omega

theorem length_writeRequestLine {c s : Nat} (hc : c < cylinders) (hs : s < sectors) :
    (writeRequestLine c s).length < bufferSize - 1 := by
  have h1 : (numeral c).length ≤ 3 := length_numeral_le (by unfold cylinders at hc; omega) (by omega)
  have h2 : (numeral s).length ≤ 3 := length_numeral_le (by unfold sectors at hs; omega) (by omega)
  have h4 : (numeral 4).length = 1 := by decide
  simp [writeRequestLine, line, lit, bufferSize, h4]
  omega

/-- The server answers a read request in the client's session. -/
theorem servLoop_read {d : Disk} {c s : Nat} (hc : c < cylinders) (hs : s < sectors) :
    wp noSem.talk (servLoop d) (fun o u => u.2 = .done ∧ ∃ d', o = some d' ∧ d'.file = d.file)
      ((), (readSession c s ((d.lseek (blockOff c s)).readBytes blockSize)).dual) := by
  have htoks : toks (readRequestLine c s) 6 = [lit "R", numeral c, numeral s] :=
    toks_line (word_readRequest c s) (by simp)
  have h1 : toUnsigned (atoi (numeral c)) = c := toUnsigned_numeral (by unfold cylinders at hc; omega)
  have h2 : toUnsigned (atoi (numeral s)) = s := toUnsigned_numeral (by unfold sectors at hs; omega)
  unfold servLoop
  refine wp_bind.mpr (getMsg_talk (nulFree_line (word_readRequest c s)) (length_readRequestLine hc hs) ?_)
  simp only [htoks, dispatch, h1, h2]
  refine wp_seq (readDisk_talk hc hs) ?_
  rintro d' u ⟨hd, hfile⟩
  exact wp_ret.mpr ⟨hd, d', rfl, hfile⟩

/-- The server answers a write request in the client's session. -/
theorem servLoop_write {d : Disk} {c s : Nat} (hc : c < cylinders) (hs : s < sectors) {l : List Byte}
    (hl : l.length = blockSize) :
    wp noSem.talk (servLoop d)
      (fun o u => u.2 = .done ∧ ∃ d', o = some d' ∧ d'.file = ((d.lseek (blockOff c s)).writeBytes l).file)
      ((), (writeSession c s l).dual) := by
  have htoks : toks (writeRequestLine c s) 6 = [lit "W", numeral c, numeral s, numeral 4] :=
    toks_line (word_writeRequest c s) (by simp)
  have h1 : toUnsigned (atoi (numeral c)) = c := toUnsigned_numeral (by unfold cylinders at hc; omega)
  have h2 : toUnsigned (atoi (numeral s)) = s := toUnsigned_numeral (by unfold sectors at hs; omega)
  have h4 : atoi (numeral 4) = 4 := by decide
  unfold servLoop
  refine wp_bind.mpr (getMsg_talk (nulFree_line (word_writeRequest c s)) (length_writeRequestLine hc hs) ?_)
  simp only [htoks, dispatch, h1, h2, h4]
  refine wp_seq (writeDisk_talk hc hs hl) ?_
  rintro d' u ⟨hd, hfile⟩
  exact wp_ret.mpr ⟨hd, d', rfl, hfile⟩

/-! ## Calls of the block store -/

/-- A call of the file server, with an address on the disk. -/
inductive BlockCall where
  | read (c : Fin cylinders) (s : Fin sectors) (dest : Block)
  | write (c : Fin cylinders) (s : Fin sectors) (zones : Bytes 512)

/-- The call of the function of utils.c, with the block that the call leaves in the caller's memory. -/
def BlockCall.run : BlockCall → Prog noOps Block
  | read c s dest => readBlock c s dest
  | write c s zones => do
    writeBlock ⟨zones, c, s⟩
    .ret ⟨zones, c, s⟩

/-- The file server's block transfers and the loop of the disk server, which may start a call in any state. -/
def blockLink : Link noOps noOps Unit Unit BlockCall Block Disk where
  X := noSem
  Y := noSem
  call := BlockCall.run
  more _ := true
  serve := servLoop
  ok _ _ _ := True

/-- What a call does to an array of blocks, and the block that it leaves with its caller. -/
def BlockCall.effect (a : BlockArray) : BlockCall → Block × BlockArray
  | read c s _ => (⟨a c s, c, s⟩, a)
  | write c s zones => (⟨zones, c, s⟩, a.put c s zones)

/-- The disk agrees with the array on every block. -/
def Disk.Holds (d : Disk) (a : BlockArray) : Prop := ∀ c s, s < sectors → d.block c s = a c s

def BlockEff (d : Disk) (_ : Unit) (x : BlockCall) (r : Block) (o : Option Disk) (_ : Unit) : Prop :=
  ∃ d', o = some d' ∧ r = (x.effect d.block).1 ∧ d'.Holds (x.effect d.block).2

theorem servLoop_waits (d : Disk) : ∃ n f, servLoop d = .read n f := ⟨_, _, rfl⟩

/-- Each call and the round of the disk server that answers it follow one session. -/
theorem blockLink_atomic : blockLink.Atomic (fun _ _ => True) BlockEff where
  waits := servLoop_waits
  session := by
    rintro d ⟨⟩ x - -
    cases x with
    | read c s dest =>
      have hlen := (d.lseek (blockOff c s)).length_readBytes blockSize
      refine ⟨_, _, fun o _ => ∃ d', o = some d' ∧ d'.file = d.file, readSession_closing c s hlen,
        fun _ => readBlock_talk c.isLt s.isLt dest hlen, servLoop_read c.isLt s.isLt, ?_⟩
      rintro r k' _ rfl ⟨d', rfl, hfile⟩
      refine ⟨d', rfl, ?_, fun c' s' _ => ?_⟩
      · rw [Disk.blit_readBytes]
        rfl
      · show d'.block c' s' = d.block c' s'
        unfold Disk.block
        rw [hfile]
    | write c s zones =>
      have hlen := zones.length_slice 0 blockSize
      refine ⟨_, fun r => r = ⟨zones, c, s⟩,
        fun o _ => ∃ d', o = some d' ∧ d'.file = ((d.lseek (blockOff c s)).writeBytes (zones.slice 0 blockSize)).file,
        writeSession_closing c s hlen, fun cst => ?_, servLoop_write c.isLt s.isLt hlen, ?_⟩
      · refine wp_seq (writeBlock_talk (b := ⟨zones, c, s⟩) c.isLt s.isLt) ?_
        intro _ u hd
        exact wp_ret.mpr ⟨hd, rfl⟩
      · rintro r k' _ rfl ⟨d', rfl, hfile⟩
        refine ⟨d', rfl, rfl, fun c' s' hs' => ?_⟩
        show d'.block c' s' = d.block.put c s zones c' s'
        rw [← Disk.block_writeBytes d s.isLt zones hs']
        unfold Disk.block
        rw [hfile]
  more := by
    rintro d _ x r _ - - ⟨d', heq, -⟩
    cases heq
  inv _ _ _ _ _ _ _ _ _ := trivial

/-- The bytes of block `(c, s)` after the calls of a log: those of the last write to it, or the initial ones. -/
def lastWritten (a : BlockArray) (log : List (BlockCall × Block)) (c s : Nat) : Bytes 512 :=
  log.foldl (fun z x => match x.1 with
    | .write c' s' zones => if c = c' ∧ s = s' then zones else z
    | .read .. => z) (a c s)

theorem lastWritten_concat (a : BlockArray) (log : List (BlockCall × Block)) (x : BlockCall) (r : Block) :
    lastWritten a (log ++ [(x, r)]) = (x.effect (lastWritten a log)).2 := by
  funext c s
  cases x with
  | read c' s' dest => simp [lastWritten, BlockCall.effect]
  | write c' s' zones => simp [lastWritten, BlockCall.effect, BlockArray.put]

/-- Each read of the log fetched what was written last before it. -/
def ReadsLast (a : BlockArray) (log : List (BlockCall × Block)) : Prop :=
  ∀ pre c s dest r post, log = pre ++ (.read c s dest, r) :: post → r = ⟨lastWritten a pre c s, c, s⟩

theorem ReadsLast.concat {a : BlockArray} {log : List (BlockCall × Block)} (h : ReadsLast a log) {x : BlockCall}
    {r : Block} (hr : ∀ c s dest, x = .read c s dest → r = ⟨lastWritten a log c s, c, s⟩) :
    ReadsLast a (log ++ [(x, r)]) := by
  intro pre c s dest r' post heq
  rcases List.eq_nil_or_concat post with rfl | ⟨post, y, rfl⟩
  · obtain ⟨rfl, hx⟩ := List.append_inj' heq rfl
    cases hx
    exact hr c s dest rfl
  · rw [List.concat_eq_append, ← List.cons_append, ← List.append_assoc] at heq
    exact h pre c s dest r' post (List.append_inj' heq rfl).1

/-- Calls run one after the other read and write the array. -/
theorem calls_blocks {d₀ : Disk} {log : List (BlockCall × Block)} {o : Option Disk} {t : Unit}
    (h : Calls BlockEff d₀ () log o t) :
    ∃ d, o = some d ∧ d.Holds (lastWritten d₀.block log) ∧ ReadsLast d₀.block log := by
  induction h with
  | nil => exact ⟨d₀, rfl, fun _ _ _ => rfl, fun pre _ _ _ _ _ heq => by cases pre <;> cases heq⟩
  | @concat log d _ x r o' _ _ he ih =>
    obtain ⟨d', hd', hholds, hreads⟩ := ih
    cases hd'
    obtain ⟨d', rfl, rfl, hd'⟩ := he
    refine ⟨d', rfl, fun c s hs => ?_, hreads.concat ?_⟩
    · rw [hd' c s hs, lastWritten_concat]
      cases x with
      | read c' s' dest => exact hholds c s hs
      | write c' s' zones =>
        show d.block.put c' s' zones c s = BlockArray.put _ c' s' zones c s
        unfold BlockArray.put
        rw [hholds c s hs]
    · rintro c s dest rfl
      show (⟨d.block c s, c, s⟩ : Block) = _
      rw [hholds c s s.isLt]

/-- What holds at every configuration of a schedule. -/
theorem blockLink_reached {d₀ : Disk} {calls : List BlockCall} {g : Config noOps noOps Unit Unit BlockCall Block Disk}
    (hr : blockLink.Reaches (.initial calls () d₀ ()) g) :
    (g.cur = none → g.log.map Prod.fst ++ g.todo = calls ∧ ReadsLast d₀.block g.log ∧
      g.up = [] ∧ g.down = [] ∧ ∃ d, g.srv = .idle d ∧ d.Holds (lastWritten d₀.block g.log)) ∧
    ((g.cur = none ∧ g.todo = []) ∨ ∃ g', blockLink.Step g g') := by
  refine ⟨fun hcur => ?_, ?_⟩
  · have hcalls := Link.reaches_all (L := blockLink) hr fun _ _ => rfl
    rw [hcur] at hcalls
    refine ⟨hcalls, ?_⟩
    cases blockLink_atomic.good trivial hr with
    | talk c p k t A U Qc Qs n hc => rw [hcur] at hc; cases hc
    | prompt o _ hup hdown hsrv hlog =>
      obtain ⟨d, rfl, hholds, hreads⟩ := calls_blocks hlog
      exact ⟨hreads, hup, hdown, d, hsrv, hholds⟩
  · have hgood := blockLink_atomic.good trivial hr
    rcases hgood.step servLoop_waits nofun nofun with hs | ⟨hcur, hstop⟩
    · exact Or.inr hs
    · refine Or.inl ⟨hcur, ?_⟩
      cases htodo : g.todo with
      | nil => rfl
      | cons x xs =>
        obtain ⟨k, -, hok⟩ := hstop x xs htodo
        exact absurd trivial hok

/-- The two loops are an array of blocks. Whenever a call has returned, the disk server waits for a request,
    nothing is in flight, the disk holds what was written last to each block, and every read has fetched what
    was written last before it. No schedule of the two stops before all calls have returned, and none goes on
    forever. -/
theorem block_store (d₀ : Disk) (calls : List BlockCall) :
    (∀ g, blockLink.Reaches (.initial calls () d₀ ()) g →
      (g.cur = none → g.log.map Prod.fst ++ g.todo = calls ∧ ReadsLast d₀.block g.log ∧
        g.up = [] ∧ g.down = [] ∧ ∃ d, g.srv = .idle d ∧ d.Holds (lastWritten d₀.block g.log)) ∧
      ((g.cur = none ∧ g.todo = []) ∨ ∃ g', blockLink.Step g g')) ∧
    ∀ run : Nat → Config noOps noOps Unit Unit BlockCall Block Disk,
      run 0 = .initial calls () d₀ () → ¬ ∀ n, blockLink.Step (run n) (run (n + 1)) :=
  ⟨fun _ hr => blockLink_reached hr, blockLink_atomic.terminates trivial calls ()⟩

end MiniFs
