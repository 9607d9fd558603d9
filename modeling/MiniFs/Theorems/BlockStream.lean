import MiniFs.Lib.Stream
import MiniFs.Theorems.BlockStore

/-! # Messages and block transfers over byte streams

A stream may hand out the bytes of a message in parts. `get_msg` takes what one read returns for a whole message, so a
part of a request ends the loop of the disk server; when no read returns less than it could, the transfers are those of
`BlockStore`. A message that fills the buffer of its sender is longer than what one read asks for. -/

namespace MiniFs
open Interact Memory

/-! ## One message -/

/-- `send_msg` on one side and `get_msg` on the other, with nothing else in flight: the message arrives, cut to what the
    buffer holds, and no byte of it is left. -/
def Arrives (msg : Str) : Prop :=
  ∃ bytes, StreamMove WholeRead noSem (sendMsg msg) () [] (.ret ()) () [] bytes ∧
    (∃ q rest out, StreamMove WholeRead noSem getMsg () bytes q () rest out) ∧
    ∀ q rest out, StreamMove WholeRead noSem getMsg () bytes q () rest out →
      q = .ret (some (msg.take (bufferSize - 1))) ∧ rest = []

theorem sendMsg_move {msg : Str} {bytes : Msg} :
    StreamMove WholeRead noSem (sendMsg msg) () [] (.ret ()) () [] bytes ↔ bytes = packet (msg.take (bufferSize - 1)) := by
  constructor
  · intro h
    cases h
    rfl
  · rintro rfl
    exact .write .ret

/-- A read takes the first of the pending bytes, as many as it asks for if there are so many. -/
theorem take_of_wholeRead {n : Nat} {m rest : Msg} (h : WholeRead n m rest) (hn : m.length ≤ n) :
    m = (m ++ rest).take n ∧ rest = (m ++ rest).drop n := by
  rcases h with rfl | rfl
  · rw [List.append_nil, List.take_of_length_le hn, List.drop_of_length_le hn]
    exact ⟨rfl, rfl⟩
  · rw [List.take_left, List.drop_left]
    exact ⟨rfl, rfl⟩

/-- `get_msg` looks at the last of the bytes that it reads. -/
theorem getMsg_move {bytes rest out : Msg} {q : Prog noOps (Option Str)} (hne : bytes ≠ []) :
    StreamMove WholeRead noSem getMsg () bytes q () rest out ↔
      q = .ret (if (bytes.take (bufferSize - 1)).getLast? = some 0
        then some ((bytes.take (bufferSize - 1)).takeWhile (· != 0)) else none) ∧
      rest = bytes.drop (bufferSize - 1) ∧ out = [] := by
  constructor
  · intro h
    unfold getMsg at h
    cases h with
    | @read n k s m q t rest hm hn hR hq =>
      obtain ⟨htake, hdrop⟩ := take_of_wholeRead hR hn
      rw [← htake, ← hdrop]
      cases hq
      exact ⟨rfl, rfl, rfl⟩
  · rintro ⟨rfl, rfl, rfl⟩
    have hsplit := List.take_append_drop (bufferSize - 1) bytes
    generalize hm : bytes.take (bufferSize - 1) = m at hsplit ⊢
    generalize hrest : bytes.drop (bufferSize - 1) = rest at hsplit ⊢
    rw [← hsplit]
    refine .read (fun h => ?_) (hm ▸ List.length_take_le _ _) ?_ .ret
    · exact hne ((List.take_eq_nil_iff.mp (hm.trans h)).resolve_left (by decide))
    · by_cases hlen : bytes.length ≤ bufferSize - 1
      · exact Or.inl (hrest.symm.trans (List.drop_of_length_le hlen))
      · exact Or.inr (hm ▸ List.length_take_of_le (by omega))

/-- A message arrives exactly when it is shorter than what one read asks for. -/
theorem arrives_iff (msg : Str) (h : NulFree msg) : Arrives msg ↔ msg.length < bufferSize - 1 := by
  have hnul : NulFree (msg.take (bufferSize - 1)) := h.take _
  constructor
  · rintro ⟨bytes, hsend, ⟨q, rest, out, hget⟩, hall⟩
    rw [sendMsg_move] at hsend
    subst hsend
    obtain ⟨-, hrest⟩ := hall q rest out hget
    obtain ⟨-, hdrop, -⟩ := (getMsg_move (packet_ne_nil _)).mp hget
    have hlen := List.drop_eq_nil_iff.mp (hdrop.symm.trans hrest)
    rw [length_packet, List.length_take] at hlen
    omega
  · intro hlt
    have hfits : (packet (msg.take (bufferSize - 1))).length ≤ bufferSize - 1 := by
      rw [length_packet, List.length_take]
      omega
    refine ⟨_, sendMsg_move.mpr rfl, ⟨_, _, _, (getMsg_move (packet_ne_nil _)).mpr ⟨rfl, rfl, rfl⟩⟩, ?_⟩
    intro q rest out hget
    obtain ⟨rfl, rfl, -⟩ := (getMsg_move (packet_ne_nil _)).mp hget
    rw [List.take_of_length_le hfits, getMsg_packet hnul]
    exact ⟨rfl, List.drop_of_length_le hfits⟩

theorem arrives_iff_bye : Arrives (lit "BYE") ↔ (lit "BYE").length < bufferSize - 1 := arrives_iff _ (by decide)

/-- A message of 127 characters: the read stops before the terminator. -/
theorem arrives_long : ¬∀ msg : Str, NulFree msg → Arrives msg := by
  intro hall
  have hnul : NulFree (List.replicate 127 97) := fun c hc => by
    rw [List.eq_of_mem_replicate hc]
    decide
  obtain ⟨bytes, hsend, ⟨q, rest, out, hget⟩, hwhole⟩ := hall (List.replicate 127 97) hnul
  obtain ⟨-, hrest⟩ := hwhole q rest out hget
  rw [sendMsg_move] at hsend
  subst hsend
  obtain ⟨-, hdrop, -⟩ := (getMsg_move (packet_ne_nil _)).mp hget
  rw [hrest] at hdrop
  revert hdrop
  decide

/-! ## Transfers -/

/-- Where the transfers are. -/
abbrev StreamState := StreamConfig noOps noOps Unit Unit BlockCall Block Disk

/-- Both sides idle, with the calls to come and no bytes pending. -/
def streamStart (d : Disk) (calls : List BlockCall) : StreamState := (Config.initial calls () d ()).bytes

/-- From here on the calls return in every schedule: a step is possible until they have, and no schedule goes on
    forever. -/
structure Transfers (R : Nat → Msg → Msg → Prop) (d : Disk) (calls : List BlockCall) (Done : StreamState → Prop) : Prop where
  step : ∀ h, Relation.ReflTransGen (blockLink.StreamStep R) (streamStart d calls) h →
    (h.cur = none ∧ h.todo = [] ∧ Done h) ∨ ∃ h', blockLink.StreamStep R h h'
  ends : ∀ run : Nat → StreamState, run 0 = streamStart d calls → ¬∀ n, blockLink.StreamStep R (run n) (run (n + 1))

/-- A block has been written and read back, and both sides are idle with no bytes pending. -/
def RoundTrip (c : Fin cylinders) (s : Fin sectors) (zones : Bytes 512) (dest : Block) (h : StreamState) : Prop :=
  (∃ r, h.log = [(.write c s zones, r), (.read c s dest, ⟨zones, c, s⟩)]) ∧ h.up = [] ∧ h.down = [] ∧
    ∃ d, h.srv = .idle d ∧ d.block c s = zones

/-- When no read returns less than it could, a block that is written and then read is transferred. -/
theorem round_trip_whole (d : Disk) (c : Fin cylinders) (s : Fin sectors) (zones : Bytes 512) (dest : Block) :
    Transfers WholeRead d [.write c s zones, .read c s dest] (RoundTrip c s zones dest) where
  step := by
    intro h hr
    obtain ⟨g, hg, rfl⟩ := blockLink_atomic.stream_reaches trivial hr
    have hgood := blockLink_atomic.good trivial hg
    obtain ⟨hprompt, hnext⟩ := blockLink_reached hg
    rcases hnext with ⟨hcur, htodo⟩ | ⟨g', hs⟩
    · obtain ⟨hlog, hreads, hup, hdown, d', hsrv, hholds⟩ := hprompt hcur
      rw [htodo, List.append_nil] at hlog
      obtain ⟨⟨_, r₁⟩, log, hcons, rfl, hlog'⟩ := List.map_eq_cons_iff.mp hlog
      obtain ⟨⟨_, r₂⟩, log', rfl, rfl, hnil⟩ := List.map_eq_cons_iff.mp hlog'
      obtain rfl := List.map_eq_nil_iff.mp hnil
      rw [hcons] at hreads hholds
      have hwritten : lastWritten d.block [(.write c s zones, r₁)] c s = zones := by simp [lastWritten]
      have hread := hreads [(.write c s zones, r₁)] c s dest r₂ [] rfl
      rw [hwritten] at hread
      refine Or.inl ⟨hcur, htodo, ⟨r₁, ?_⟩, ?_, ?_, d', hsrv, ?_⟩
      · show g.log = _
        rw [hcons, hread]
      · show g.up.flatten = []
        rw [hup, List.flatten_nil]
      · show g.down.flatten = []
        rw [hdown, List.flatten_nil]
      · rw [hholds c s s.isLt]
        exact hwritten
    · exact Or.inr ⟨_, hgood.step_stream hs⟩
  ends := fun run h0 => blockLink_atomic.stream_terminates trivial run h0

/-! ## A request in parts -/

/-- `write_block` sends its request and waits for an answer. -/
theorem write_call (c : Fin cylinders) (s : Fin sectors) (zones : Bytes 512) : ∃ f,
    (BlockCall.write c s zones).run = .write (packet (writeRequestLine c s)) (.read (bufferSize - 1) f) := by
  have hlen : 0 < (zones.slice 0 blockSize).length := by
    rw [Bytes.length_slice]
    decide
  obtain ⟨b, l, hl⟩ := List.exists_cons_of_length_pos hlen
  unfold BlockCall.run writeBlock
  dsimp only
  rw [writeRequest_eq c.isLt s.isLt, hl]
  exact ⟨_, rfl⟩

/-- The first byte of a request comes alone: the disk server takes it for a request that is not terminated and leaves its
    loop, and the file server waits for an answer. -/
theorem stuck_of_split (d : Disk) (c : Fin cylinders) (s : Fin sectors) (zones : Bytes 512) (todo : List BlockCall) :
    ∃ h : StreamState, Relation.ReflTransGen (blockLink.StreamStep AnyRead) (streamStart d (.write c s zones :: todo)) h ∧
      h.cur ≠ none ∧ ∀ h', ¬blockLink.StreamStep AnyRead h h' := by
  obtain ⟨f, hf⟩ := write_call c s zones
  have hquiet : Quiet blockLink.X (BlockCall.write c s zones).run ()
      (.write (packet (writeRequestLine c s)) (.read (bufferSize - 1) f)) () := by
    rw [hf]
    exact .write
  have hstart := Link.StreamStep.start (R := AnyRead) (g := streamStart d (.write c s zones :: todo)) rfl rfl
    (fun _ _ => trivial) hquiet
  obtain ⟨tail, htail⟩ : ∃ tail, packet (writeRequestLine c s) = [87] ++ tail := ⟨_, rfl⟩
  have hsend : StreamMove AnyRead blockLink.X (.write (packet (writeRequestLine c s)) (.read (bufferSize - 1) f)) () []
      (.read (bufferSize - 1) f) () [] ([87] ++ tail) := htail ▸ .write .read
  have hclient := Link.StreamStep.client (L := blockLink) (g :=
    ⟨todo, some (.write c s zones, _), (), [], .idle d, (), [], [], 0⟩)
    rfl hsend
  have htake : StreamMove AnyRead blockLink.Y (blockLink.serve d) () ([87] ++ tail) (.ret none) () tail [] :=
    .read (List.cons_ne_nil _ _) (by decide) trivial .ret
  have haccept := Link.StreamStep.accept (L := blockLink)
    (g := ⟨todo, some (.write c s zones, .read (bufferSize - 1) f), (), [], .idle d, (), [87] ++ tail, [], 0⟩) rfl htake
  refine ⟨_, ((Relation.ReflTransGen.single hstart).tail hclient).tail haccept, Option.some_ne_none _, fun h' hs => ?_⟩
  cases hs with
  | start hc _ _ _ => cases hc
  | client hc hm =>
    cases hc
    exact hm.pending rfl
  | finish hc => cases hc
  | accept hi _ => cases hi
  | server hb _ => cases hb

theorem round_trip_split : ¬∀ (d : Disk) (c : Fin cylinders) (s : Fin sectors) (zones : Bytes 512) (dest : Block),
    Transfers AnyRead d [.write c s zones, .read c s dest] (RoundTrip c s zones dest) := by
  intro hall
  have hc : 0 < cylinders := by decide
  have hs : 0 < sectors := by decide
  obtain ⟨h, hr, hcur, hstuck⟩ := stuck_of_split ⟨fun _ => 0, 0⟩ ⟨0, hc⟩ ⟨0, hs⟩ .zero [.read ⟨0, hc⟩ ⟨0, hs⟩ ⟨.zero, 0, 0⟩]
  rcases (hall _ _ _ _ _).step h hr with ⟨hdone, -⟩ | ⟨h', hstep⟩
  · exact hcur hdone
  · exact hstuck h' hstep

end MiniFs
