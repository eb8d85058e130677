import TradeX.Retransmitter
import Mathlib.Order.Basic

/-!
# Packing messages

The loops of `sendThread` that take messages from the queue and pack them, up to 23 to a
datagram and up to 64 datagrams to a batch, and the same messages into the buffer for the
retransmitter. They stop where `pop` fails, and the length of the last datagram is found out
from the number of messages packed.

The buffers of the datagrams lie one behind the other, and so do the messages in them
(`Packed`). `pack_roundTrip` is what the receivers of the datagrams, and of the other buffer,
find in them.
-/

namespace TradeX

/-- `batch_t`. The `iov_base` of packet `p` is `p * MAX_MSG_SIZE` in the buffer. -/
structure Batch where
  capacity : ℕ
  buffer : Buffer UInt8
  tcpBuffer : Buffer UInt8
  iovLen : ℕ → ℕ

namespace Batch

/-- `init_batch`, in memory that holds anything. -/
def init (memory tcpMemory : ℕ → UInt8) (cap : ℕ) : Batch where
  capacity := cap
  buffer := ⟨cap * maxMsgSize, memory⟩
  tcpBuffer := ⟨cap * maxMsgSize, tcpMemory⟩
  iovLen _ := 0

/-- `iov[p].iov_len = len`. -/
def setIovLen (b : Batch) (p len : ℕ) : Except Fault Batch :=
  if p < b.capacity then .ok { b with iovLen := Function.update b.iovLen p len }
  else .error .badAccess

/-- The datagrams that are sent. -/
def datagrams (b : Batch) (packetsToSend : ℕ) : List (List UInt8) :=
  (List.range packetsToSend).map fun p => b.buffer.read (p * maxMsgSize) (b.iovLen p)

end Batch

/-- What the loops have done : the batch, the packets that are ready, the bytes in the other
buffer, and the messages they have popped. -/
structure Packing where
  batch : Batch
  packetsToSend : ℕ
  tcpOffset : ℕ
  popped : List MessageBytes

namespace Packing

/-- A message is popped, and copied to its place in packet `p` and to the other buffer. -/
def pack (s : Packing) (p msgsPacked : ℕ) (msg : MessageBytes) : Except Fault Packing := do
  let buffer ← copyTo s.batch.buffer (p * maxMsgSize + msgsPacked * sizeofMarketDataMessage)
    msg.bytes
  let tcpBuffer ← copyTo s.batch.tcpBuffer s.tcpOffset msg.bytes
  .ok { s with
    batch := { s.batch with buffer := buffer, tcpBuffer := tcpBuffer }
    tcpOffset := s.tcpOffset + sizeofMarketDataMessage
    popped := s.popped ++ [msg] }

/-- The inner loop, with `n` messages to go. It ends with the number of messages in the packet,
or where `pop` fails. The call of `pop` after `k` messages returns `pop k`. -/
def fillPacket (pop : ℕ → Option MessageBytes) (p : ℕ) :
    ℕ → ℕ → Packing → Except Fault (Option ℕ × Packing)
  | 0, msgsPacked, s => .ok (some msgsPacked, s)
  | n + 1, msgsPacked, s =>
    match pop s.popped.length with
    | some msg => do
      let s ← s.pack p msgsPacked msg
      fillPacket pop p n (msgsPacked + 1) s
    | none => .ok (none, s)

/-- The outer loop from packet `p` on, with `n` packets to go. -/
def fillPackets (pop : ℕ → Option MessageBytes) : ℕ → ℕ → Packing →
    Except Fault Packing
  | 0, _, s => .ok s
  | n + 1, p, s => do
    let (msgsPacked, s) ← fillPacket pop p msgPerPacket 0 s
    match msgsPacked with
    | some msgsPacked =>
      let batch ← s.batch.setIovLen p (msgsPacked * sizeofMarketDataMessage)
      fillPackets pop n (p + 1) { s with batch := batch, packetsToSend := s.packetsToSend + 1 }
    | none => .ok s

/-- The part after `flush`. -/
def flush (s : Packing) : Except Fault Packing :=
  if s.packetsToSend < s.batch.capacity then
    let currentPacketMsgs := s.tcpOffset / sizeofMarketDataMessage % msgPerPacket
    if currentPacketMsgs > 0 then do
      let batch ← s.batch.setIovLen s.packetsToSend (currentPacketMsgs * sizeofMarketDataMessage)
      .ok { s with batch := batch, packetsToSend := s.packetsToSend + 1 }
    else .ok s
  else .ok s

end Packing

/-- A pass of the packing loops. -/
def Batch.pack (b : Batch) (pop : ℕ → Option MessageBytes) : Except Fault Packing := do
  let s ← Packing.fillPackets pop b.capacity 0 ⟨b, 0, 0, []⟩
  s.flush

/-! ## Where the messages are -/

/-- The buffers have the sizes that `init_batch` gives them. -/
structure Batch.WF (b : Batch) : Prop where
  bufferSize : b.buffer.size = b.capacity * maxMsgSize
  tcpSize : b.tcpBuffer.size = b.capacity * maxMsgSize

theorem Batch.wf_init (memory tcpMemory : ℕ → UInt8) (cap : ℕ) :
    (init memory tcpMemory cap).WF :=
  ⟨rfl, rfl⟩

namespace Packing

/-- Both buffers hold the messages that have been popped, one behind the other. -/
structure Placed (pop : ℕ → Option MessageBytes) (s : Packing) : Prop where
  wf : s.batch.WF
  results : ∀ i, i < s.popped.length → pop i = s.popped[i]?
  tcpOffset : s.tcpOffset = s.popped.length * sizeofMarketDataMessage
  buffer : s.batch.buffer.read 0 (s.popped.length * sizeofMarketDataMessage) =
    (bytesOf s.popped).flatten
  tcpBuffer : s.batch.tcpBuffer.read 0 (s.popped.length * sizeofMarketDataMessage) =
    (bytesOf s.popped).flatten

/-- The packets that are ready are full. -/
structure Packed (pop : ℕ → Option MessageBytes) (s : Packing) : Prop extends Placed pop s where
  full : ∀ i, i < s.packetsToSend → s.batch.iovLen i = maxMsgSize

variable {pop : ℕ → Option MessageBytes} {s : Packing} {p m n : ℕ}

theorem packed_start {b : Batch} (hb : b.WF) : Packed pop ⟨b, 0, 0, []⟩ :=
  ⟨⟨hb, nofun, rfl, rfl, rfl⟩, nofun⟩

/-- The next message goes behind the others. -/
theorem read_write_bytesOf {b : Buffer UInt8} {l : List MessageBytes}
    (h : b.read 0 (l.length * sizeofMarketDataMessage) = (bytesOf l).flatten) (msg : MessageBytes) :
    (b.write (l.length * sizeofMarketDataMessage) msg.bytes).read 0
        ((l ++ [msg]).length * sizeofMarketDataMessage) = (bytesOf (l ++ [msg])).flatten := by
  have hlen : (l ++ [msg]).length * sizeofMarketDataMessage =
      l.length * sizeofMarketDataMessage + msg.bytes.length := by
    rw [List.length_append, List.length_singleton, Nat.succ_mul, msg.size]
  rw [hlen, Buffer.read_write_append, h]
  simp [bytesOf]

theorem Packed.pack (h : Packed pop s) {msg : MessageBytes}
    (hpop : pop s.popped.length = some msg) (hplace : p * msgPerPacket + m = s.popped.length)
    (hroom : s.popped.length < s.batch.capacity * msgPerPacket) :
    ∃ s', s.pack p m msg = .ok s' ∧ Packed pop s' ∧ s'.popped = s.popped ++ [msg] ∧
      s'.packetsToSend = s.packetsToSend ∧ s'.batch.capacity = s.batch.capacity := by
  have hoffset : p * maxMsgSize + m * sizeofMarketDataMessage =
      s.popped.length * sizeofMarketDataMessage := by
    rw [maxMsgSize, ← Nat.mul_assoc, ← Nat.add_mul, hplace]
  have hend : s.popped.length * sizeofMarketDataMessage + msg.bytes.length ≤
      s.batch.capacity * maxMsgSize := by
    rw [msg.size, ← Nat.succ_mul, maxMsgSize, ← Nat.mul_assoc]
    exact Nat.mul_le_mul_right _ hroom
  refine ⟨_, bind_eq_ok.2 ⟨_, if_pos ?_, bind_eq_ok.2 ⟨_, if_pos ?_, rfl⟩⟩,
    ⟨⟨⟨h.wf.bufferSize, h.wf.tcpSize⟩, fun i hi => ?_, ?_, ?_, ?_⟩, h.full⟩, rfl, rfl,
      rfl⟩
  · rw [hoffset, h.wf.bufferSize]
    exact hend
  · rw [h.tcpOffset, h.wf.tcpSize]
    exact hend
  · rw [List.length_append, List.length_singleton] at hi
    rcases Nat.lt_succ_iff_lt_or_eq.1 hi with hi | rfl
    · rw [List.getElem?_append_left hi]
      exact h.results i hi
    · rw [hpop, List.getElem?_concat_length]
  · rw [h.tcpOffset, List.length_append, List.length_singleton, Nat.succ_mul]
  · simp only [hoffset]
    exact read_write_bytesOf h.buffer msg
  · simp only [h.tcpOffset]
    exact read_write_bytesOf h.tcpBuffer msg

/-- The inner loop fills packet `p`, or stops on the way. -/
theorem Packed.fillPacket : ∀ {n m : ℕ} {s : Packing}, Packed pop s →
    p * msgPerPacket + m = s.popped.length → m + n = msgPerPacket → p < s.batch.capacity →
    ∃ r s', Packing.fillPacket pop p n m s = .ok (r, s') ∧ Packed pop s' ∧
      s'.packetsToSend = s.packetsToSend ∧ s'.batch.capacity = s.batch.capacity ∧
      (r = some msgPerPacket ∧ s'.popped.length = (p + 1) * msgPerPacket ∨
        r = none ∧ p * msgPerPacket ≤ s'.popped.length ∧
          s'.popped.length < (p + 1) * msgPerPacket ∧ pop s'.popped.length = none)
  | 0, m, s, h, hplace, hm, _ => by
    rw [Nat.add_zero] at hm
    subst hm
    exact ⟨_, s, rfl, h, rfl, rfl, Or.inl ⟨rfl, by rw [← hplace, Nat.succ_mul]⟩⟩
  | n + 1, m, s, h, hplace, hm, hp => by
    have hnext := Nat.mul_le_mul_right msgPerPacket hp
    rw [Nat.succ_mul] at hnext
    rw [Packing.fillPacket]
    cases hpop : pop s.popped.length with
    | none =>
      refine ⟨none, s, rfl, h, rfl, rfl, Or.inr ⟨rfl, by omega, ?_, hpop⟩⟩
      rw [Nat.succ_mul]
      omega
    | some msg =>
      obtain ⟨s₁, hs₁, h₁, hpopped, hpackets, hcap⟩ := h.pack hpop hplace (by omega)
      obtain ⟨r, s', hs', h', hpackets', hcap', hr⟩ := fillPacket (n := n) (m := m + 1) h₁
        (by rw [hpopped, List.length_append, List.length_singleton]; omega) (by omega)
        (by rw [hcap]; exact hp)
      exact ⟨r, s', bind_eq_ok.2 ⟨s₁, hs₁, hs'⟩, h', hpackets'.trans hpackets,
        hcap'.trans hcap, hr⟩

/-- Packet `p` is given its length. -/
theorem Packed.setIovLen (h : Packed pop s) (hpackets : s.packetsToSend = p)
    (hp : p < s.batch.capacity) :
    ∃ batch, s.batch.setIovLen p maxMsgSize = .ok batch ∧ batch.capacity = s.batch.capacity ∧
      Packed pop { s with batch := batch, packetsToSend := s.packetsToSend + 1 } := by
  refine ⟨_, if_pos hp, rfl, ⟨⟨h.wf.bufferSize, h.wf.tcpSize⟩, h.results, h.tcpOffset,
    h.buffer, h.tcpBuffer⟩, fun i hi => ?_⟩
  rcases eq_or_ne i p with rfl | hne
  · exact Function.update_self ..
  · simp only [Function.update_of_ne hne]
    exact h.full i (by simp only at hi; omega)

/-- The outer loop fills packets until `pop` fails or the batch is full. -/
theorem Packed.fillPackets : ∀ {n p : ℕ} {s : Packing}, Packed pop s →
    s.popped.length = p * msgPerPacket → s.packetsToSend = p → p + n = s.batch.capacity →
    ∃ s', Packing.fillPackets pop n p s = .ok s' ∧ Packed pop s' ∧
      s'.batch.capacity = s.batch.capacity ∧ s'.packetsToSend ≤ s.batch.capacity ∧
      s'.packetsToSend * msgPerPacket ≤ s'.popped.length ∧
      s'.popped.length < (s'.packetsToSend + 1) * msgPerPacket ∧
      (s'.packetsToSend = s.batch.capacity →
        s'.popped.length = s.batch.capacity * msgPerPacket) ∧
      (s'.popped.length = s.batch.capacity * msgPerPacket ∨ pop s'.popped.length = none)
  | 0, p, s, h, hlen, hpackets, hp => by
    have hall : s.popped.length = s.batch.capacity * msgPerPacket := by
      rw [hlen, ← hp, Nat.add_zero]
    refine ⟨s, rfl, h, rfl, by omega, by rw [hlen, hpackets], ?_, fun _ => hall, Or.inl hall⟩
    rw [hlen, hpackets]
    exact Nat.mul_lt_mul_of_pos_right (Nat.lt_succ_self p) msgPerPacket_pos
  | n + 1, p, s, h, hlen, hpackets, hp => by
    obtain ⟨r, s₁, hs₁, h₁, hpackets₁, hcap₁, hr⟩ :=
      h.fillPacket (n := msgPerPacket) (m := 0) hlen.symm (Nat.zero_add _) (p := p) (by omega)
    rcases hr with ⟨rfl, hfull⟩ | ⟨rfl, hge, hlt, hpop⟩
    · obtain ⟨batch, hbatch, hcap, h₂⟩ :=
        h₁.setIovLen (hpackets₁.trans hpackets) (by omega)
      obtain ⟨s', hs', h', hcap', hrest⟩ := fillPackets (n := n) (p := p + 1) h₂ hfull
        (by simp only [hpackets₁, hpackets]) (by simp only [hcap, hcap₁]; omega)
      simp only [hcap, hcap₁] at hcap' hrest
      exact ⟨s', bind_eq_ok.2 ⟨_, hs₁, bind_eq_ok.2 ⟨batch, hbatch, hs'⟩⟩, h', hcap',
        hrest⟩
    · have hpackets' := hpackets₁.trans hpackets
      refine ⟨s₁, bind_eq_ok.2 ⟨_, hs₁, rfl⟩, h₁,
        hcap₁, by omega, ?_, ?_, fun hcap => ?_, Or.inr hpop⟩
      · rw [hpackets']
        exact hge
      · rw [hpackets']
        exact hlt
      · omega

/-- The packets cover the messages, each but the last with 23 of them, and the loops have stopped
where `pop` failed or the batch was full. -/
structure Ready (pop : ℕ → Option MessageBytes) (s : Packing) : Prop extends Placed pop s where
  packets_le : s.packetsToSend ≤ s.batch.capacity
  covers : s.popped.length ≤ s.packetsToSend * msgPerPacket
  used : ∀ i, i < s.packetsToSend → i * msgPerPacket < s.popped.length
  lens : ∀ i, i < s.packetsToSend → s.batch.iovLen i =
    min msgPerPacket (s.popped.length - i * msgPerPacket) * sizeofMarketDataMessage
  stops : s.popped.length = s.batch.capacity * msgPerPacket ∨ pop s.popped.length = none

/-- A full packet has 23 messages. -/
theorem Packed.len (h : Packed pop s) (hle : s.packetsToSend * msgPerPacket ≤ s.popped.length)
    {i : ℕ} (hi : i < s.packetsToSend) : i * msgPerPacket < s.popped.length ∧ s.batch.iovLen i =
      min msgPerPacket (s.popped.length - i * msgPerPacket) * sizeofMarketDataMessage := by
  have hnext : (i + 1) * msgPerPacket ≤ s.popped.length :=
    Nat.le_trans (Nat.mul_le_mul_right _ hi) hle
  rw [Nat.succ_mul] at hnext
  have hpos := msgPerPacket_pos
  rw [Nat.min_eq_left (by omega)]
  exact ⟨by omega, h.full i hi⟩

/-- Nothing is left for a last packet. -/
theorem Packed.ready (h : Packed pop s) (hcap : s.packetsToSend ≤ s.batch.capacity)
    (hlen : s.popped.length = s.packetsToSend * msgPerPacket)
    (hstops : s.popped.length = s.batch.capacity * msgPerPacket ∨ pop s.popped.length = none) :
    Ready pop s :=
  ⟨h.toPlaced, hcap, hlen.le, fun _ hi => (h.len hlen.ge hi).1, fun _ hi => (h.len hlen.ge hi).2,
    hstops⟩

/-- The last packet is given its length, if it has messages. -/
theorem Packed.flush (h : Packed pop s) (hle : s.packetsToSend * msgPerPacket ≤ s.popped.length)
    (hlt : s.popped.length < (s.packetsToSend + 1) * msgPerPacket)
    (hcap : s.packetsToSend ≤ s.batch.capacity)
    (hall : s.packetsToSend = s.batch.capacity →
      s.popped.length = s.batch.capacity * msgPerPacket)
    (hstops : s.popped.length = s.batch.capacity * msgPerPacket ∨ pop s.popped.length = none) :
    ∃ s', s.flush = .ok s' ∧ Ready pop s' ∧ s'.batch.capacity = s.batch.capacity := by
  obtain ⟨r, hr⟩ := Nat.exists_eq_add_of_le hle
  have hrlt : r < msgPerPacket := by
    rw [Nat.succ_mul] at hlt
    omega
  have hcurrent : s.tcpOffset / sizeofMarketDataMessage % msgPerPacket = r := by
    rw [h.tcpOffset, Nat.mul_div_cancel _ sizeofMarketDataMessage_pos, hr, Nat.mul_comm,
      Nat.mul_add_mod, Nat.mod_eq_of_lt hrlt]
  rw [Packing.flush, hcurrent]
  rcases Nat.lt_or_ge s.packetsToSend s.batch.capacity with hmore | hfull
  · rw [if_pos hmore]
    rcases Nat.eq_zero_or_pos r with rfl | hpos
    · exact ⟨s, rfl, h.ready hcap hr hstops, rfl⟩
    · rw [if_pos hpos]
      refine ⟨_, bind_eq_ok.2 ⟨_, if_pos hmore, rfl⟩,
        ⟨⟨⟨h.wf.bufferSize, h.wf.tcpSize⟩, h.results,
        h.tcpOffset, h.buffer, h.tcpBuffer⟩, hmore, ?_, fun i hi => ?_, fun i hi => ?_, hstops⟩,
          rfl⟩
      · exact hlt.le
      · rcases Nat.lt_succ_iff_lt_or_eq.1 hi with hi | rfl
        · exact (h.len hle hi).1
        · simp only
          omega
      · rcases Nat.lt_succ_iff_lt_or_eq.1 hi with hi | rfl
        · simp only [Function.update_of_ne (Nat.ne_of_lt hi)]
          exact (h.len hle hi).2
        · simp only [Function.update_self, hr, Nat.add_sub_cancel_left]
          rw [Nat.min_eq_right hrlt.le]
  · have hq := Nat.le_antisymm hcap hfull
    rw [if_neg (Nat.not_lt.2 hfull)]
    exact ⟨s, rfl, h.ready hcap (by rw [hall hq, hq]) hstops, rfl⟩

end Packing

/-- Every pass of the loops returns. -/
theorem Batch.WF.pack {b : Batch} (hb : b.WF) (pop : ℕ → Option MessageBytes) :
    ∃ s, b.pack pop = .ok s ∧ Packing.Ready pop s ∧ s.batch.capacity = b.capacity := by
  have hstart : Packing.Packed pop ⟨b, 0, 0, []⟩ := Packing.packed_start hb
  obtain ⟨s, hs, h, hcap, hq, hle, hlt, hall, hstops⟩ :=
    hstart.fillPackets (n := b.capacity) (p := 0) (Nat.zero_mul _).symm rfl (Nat.zero_add _)
  simp only at hcap hq hall hstops
  rw [← hcap] at hq hall hstops
  obtain ⟨s', hs', h', hcap'⟩ := h.flush hle hlt hq hall hstops
  exact ⟨s', bind_eq_ok.2 ⟨s, hs, hs'⟩, h', hcap'.trans hcap⟩

/-! ## What is received -/

/-- The messages that `Listener` finds in a datagram, of which it receives as much as its buffer
holds : as many as there is room for, one behind the other. -/
def Listener.messages (datagram : List UInt8) : List (List UInt8) :=
  Streams.frames sizeofMarketDataMessage (datagram.take maxMsgSize)

namespace Packing

variable {pop : ℕ → Option MessageBytes} {s : Packing}

/-- A datagram holds its messages. -/
theorem Ready.messages (h : Ready pop s) {i : ℕ} (hi : i < s.packetsToSend) :
    Listener.messages (s.batch.buffer.read (i * maxMsgSize) (s.batch.iovLen i)) =
      ((bytesOf s.popped).drop (i * msgPerPacket)).take msgPerPacket := by
  have hframes : ∀ f ∈ bytesOf s.popped, f.length = sizeofMarketDataMessage := fun f hf =>
    length_of_mem_bytesOf hf
  have hused := h.used i hi
  have hlen : ((bytesOf s.popped).drop (i * msgPerPacket)).length =
      s.popped.length - i * msgPerPacket := by
    rw [List.length_drop, bytesOf, List.length_map]
  have hread : s.batch.buffer.read (i * maxMsgSize) (s.batch.iovLen i) =
      (((bytesOf s.popped).drop (i * msgPerPacket)).take
        (min msgPerPacket (s.popped.length - i * msgPerPacket))).flatten := by
    rw [← Streams.flatten_take (fun f hf => hframes f (List.mem_of_mem_drop hf)),
      ← Streams.flatten_drop hframes, ← h.buffer,
        Buffer.drop_read _ (Nat.mul_le_mul_right _ hused.le),
      ← Nat.sub_mul, Buffer.take_read _ (Nat.mul_le_mul_right _ (Nat.min_le_right ..)),
      h.lens i hi, Nat.zero_add, maxMsgSize, Nat.mul_assoc]
  have hfits : (s.batch.buffer.read (i * maxMsgSize) (s.batch.iovLen i)).length ≤ maxMsgSize := by
    rw [Buffer.length_read, h.lens i hi]
    exact Nat.mul_le_mul_right _ (Nat.min_le_left ..)
  rw [Listener.messages, List.take_of_length_le hfits, hread,
    Streams.frames_flatten sizeofMarketDataMessage_pos
    fun f hf => hframes f (List.mem_of_mem_drop (List.mem_of_mem_take hf)), List.take_eq_take_iff,
    hlen, Nat.min_assoc, Nat.min_self]

theorem Ready.flatMap_messages (h : Ready pop s) : ∀ n, n ≤ s.packetsToSend →
    (s.batch.datagrams n).flatMap Listener.messages =
      (bytesOf s.popped).take (n * msgPerPacket)
  | 0, _ => by simp [Batch.datagrams]
  | n + 1, hn => by
    have hprev := h.flatMap_messages n (by omega)
    rw [Batch.datagrams] at hprev ⊢
    rw [List.range_succ, List.map_append, List.flatMap_append, hprev, Nat.succ_mul, List.take_add,
      List.map_singleton, List.flatMap_singleton, h.messages hn]

/-- The datagrams hold the messages that have been popped. -/
theorem Ready.received (h : Ready pop s) :
    (s.batch.datagrams s.packetsToSend).flatMap Listener.messages = bytesOf s.popped := by
  rw [h.flatMap_messages _ le_rfl]
  refine List.take_of_length_le ?_
  rw [bytesOf, List.length_map]
  exact h.covers

theorem Ready.iovLen_spec (h : Ready pop s) {i : ℕ} (hi : i < s.packetsToSend) :
    0 < s.batch.iovLen i ∧ sizeofMarketDataMessage ∣ s.batch.iovLen i ∧
      s.batch.iovLen i ≤ maxMsgSize := by
  have hused := h.used i hi
  have hpos : 0 < min msgPerPacket (s.popped.length - i * msgPerPacket) :=
    Nat.lt_min.2 ⟨msgPerPacket_pos, by omega⟩
  rw [h.lens i hi]
  exact ⟨Nat.mul_pos hpos sizeofMarketDataMessage_pos, Nat.dvd_mul_left ..,
    Nat.mul_le_mul_right _ (Nat.min_le_left ..)⟩

/-- The loops have popped messages until `pop` failed or the batch was full, the lengths of the
datagrams are right, and the receivers of the datagrams and of the other buffer find the messages
that have been popped. -/
structure RoundTrip (pop : ℕ → Option MessageBytes) (s : Packing) : Prop where
  popped : ∀ i, i < s.popped.length → pop i = s.popped[i]?
  stops : s.popped.length = 64 * 23 ∨ pop s.popped.length = none
  packets : s.packetsToSend ≤ 64
  lens : ∀ i, i < s.packetsToSend → 0 < s.batch.iovLen i ∧ 64 ∣ s.batch.iovLen i ∧
    s.batch.iovLen i ≤ 23 * 64
  listener : (s.batch.datagrams s.packetsToSend).flatMap Listener.messages = bytesOf s.popped
  storeThread : ∀ memory slots pieces, Runs.Always
    (fun st piece st' => Retransmitter.recv st piece = .ok st') Retransmitter.Receivable
      (.init memory slots) pieces →
    pieces.flatten = s.batch.tcpBuffer.read 0 s.tcpOffset →
    ∃ st, pieces.foldlM Retransmitter.recv (.init memory slots) = .ok st ∧
      st.stored = bytesOf s.popped

theorem Ready.roundTrip (h : Ready pop s) (hcap : s.batch.capacity = 64) : RoundTrip pop s where
  popped := h.results
  stops := by
    have hstops := h.stops
    rwa [hcap] at hstops
  packets := hcap ▸ h.packets_le
  lens i hi := h.iovLen_spec hi
  listener := h.received
  storeThread memory slots pieces hpieces hflatten := by
    obtain ⟨st, hst, hstored⟩ := Retransmitter.stores_frames memory slots hpieces
    refine ⟨st, hst, ?_⟩
    rw [hstored, hflatten, h.tcpOffset, h.tcpBuffer,
      Streams.frames_flatten sizeofMarketDataMessage_pos fun f hf => length_of_mem_bytesOf hf]

end Packing

namespace Batch

/-- Passes one after the other. -/
def packAll (b : Batch) (passes : List (ℕ → Option MessageBytes)) : Except Fault Batch :=
  passes.foldlM (fun b pop => (b.pack pop).map Packing.batch) b

theorem WF.packAll : ∀ (passes : List (ℕ → Option MessageBytes)) {b : Batch}, b.WF →
    ∃ b', b.packAll passes = .ok b' ∧ b'.WF ∧ b'.capacity = b.capacity
  | [], b, hb => ⟨b, rfl, hb, rfl⟩
  | pop :: passes, b, hb => by
    obtain ⟨s, hs, h, hcap⟩ := hb.pack pop
    obtain ⟨b', hb', hwf, hcap'⟩ := packAll passes h.wf
    refine ⟨b', ?_, hwf, hcap'.trans hcap⟩
    rw [Batch.packAll, List.foldlM_cons, map_eq_ok.2 ⟨s, hs, rfl⟩]
    exact hb'

/-- Whatever `pop` returns, in this pass and in the passes before it, the loops return, and the
messages they have popped are what is received. -/
theorem pack_roundTrip (memory tcpMemory : ℕ → UInt8)
    (earlier : List (ℕ → Option MessageBytes)) (pop : ℕ → Option MessageBytes) :
    ∃ b s, (init memory tcpMemory 64).packAll earlier = .ok b ∧ b.pack pop = .ok s ∧
      s.RoundTrip pop := by
  obtain ⟨b, hb, hwf, hcap⟩ := WF.packAll earlier (wf_init memory tcpMemory 64)
  obtain ⟨s, hs, h, hcap'⟩ := hwf.pack pop
  exact ⟨b, s, hb, hs, h.roundTrip (hcap'.trans hcap)⟩

end Batch

end TradeX
