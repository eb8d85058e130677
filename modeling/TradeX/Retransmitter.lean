import TradeX.Message
import TradeX.Library.Runs
import TradeX.Library.Streams

/-!
# Storing messages for retransmission

`storeThread` of `Retransmitter`. It receives the stream of messages in pieces of any size into
a buffer, stores the whole messages it finds there in the slots of their numbers, and moves
what is left over to the front. However the stream is split, the messages are its frames
(`stores_frames`).

`storeThread` is the whole loop, with every result of `recv`. On a stream of whole messages it
stores each of them, a later one over an earlier one of the same slot, carries less than a
message from one pass to the next and always has space to offer (`storeThread_stores`).
-/

namespace TradeX

/-- `batch.tcp_buffer` with the number of bytes it holds, and the slots. `received` are the bytes
that have been received, and `stored` the messages that have been stored. -/
structure Retransmitter where
  tcpBuffer : Buffer UInt8
  buffered : ℕ
  slots : ℕ → List UInt8
  received : List UInt8
  stored : List (List UInt8)

namespace Retransmitter

/-- `SIZE`. -/
def slotCount : ℕ := 2 ^ 20

/-- `init_batch(64)`, in memory that holds anything. -/
def init (memory : ℕ → UInt8) (slots : ℕ → List UInt8) : Retransmitter :=
  ⟨⟨64 * maxMsgSize, memory⟩, 0, slots, [], []⟩

/-- `memcpy` to the slot of the message. -/
def store (st : Retransmitter) (msg : List UInt8) : Retransmitter :=
  { st with
    slots := Function.update st.slots (seqNumOf msg &&& (slotCount - 1)) msg
    stored := st.stored ++ [msg] }

/-- The loop over the whole messages from `offset` on, and the offset where it ends. -/
def storeMessages (st : Retransmitter) (offset : ℕ) : Except Fault (ℕ × Retransmitter) :=
  if sizeofMarketDataMessage ≤ st.buffered - offset then do
    let msg ← copyFrom st.tcpBuffer offset sizeofMarketDataMessage
    storeMessages (st.store msg) (offset + sizeofMarketDataMessage)
  else .ok (offset, st)
termination_by st.buffered - offset
decreasing_by
  simp only [store, sizeofMarketDataMessage] at *
  omega

/-- What is left over is moved to the front. -/
def shift (st : Retransmitter) (offset : ℕ) : Except Fault Retransmitter :=
  let leftover := st.buffered - offset
  if leftover > 0 ∧ offset > 0 then do
    let bytes ← copyFrom st.tcpBuffer offset leftover
    let tcpBuffer ← copyTo st.tcpBuffer 0 bytes
    .ok { st with tcpBuffer := tcpBuffer, buffered := leftover }
  else .ok { st with buffered := leftover }

/-- The space that `recv` is offered. -/
def space (st : Retransmitter) : ℕ :=
  64 * maxMsgSize - st.buffered

/-- A pass of the loop in which `recv` returns a piece of the stream. -/
def recv (st : Retransmitter) (piece : List UInt8) : Except Fault Retransmitter := do
  let tcpBuffer ← copyTo st.tcpBuffer st.buffered piece
  let (offset, st) ← storeMessages { st with
    tcpBuffer := tcpBuffer
    buffered := st.buffered + piece.length
    received := st.received ++ piece } 0
  st.shift offset

/-- What `recv` may return : something, and no more than the space it is offered. -/
def Receivable (st : Retransmitter) (piece : List UInt8) : Prop :=
  0 < piece.length ∧ piece.length ≤ st.space

/-! ## Frames -/

/-- The messages of the stream have been stored, and the buffer holds what is left over. -/
structure Framed (st : Retransmitter) : Prop where
  size : st.tcpBuffer.size = 64 * maxMsgSize
  stored : st.stored = Streams.frames sizeofMarketDataMessage st.received
  buffered : st.tcpBuffer.read 0 st.buffered = Streams.leftover sizeofMarketDataMessage st.received

theorem framed_init (memory : ℕ → UInt8) (slots : ℕ → List UInt8) :
    Framed (init memory slots) :=
  ⟨rfl, (Streams.frames_of_lt sizeofMarketDataMessage_pos).symm, List.drop_nil.symm⟩

variable {st : Retransmitter}

theorem Framed.buffered_lt (h : Framed st) : st.buffered < sizeofMarketDataMessage := by
  have hlen := congrArg List.length h.buffered
  rw [Buffer.length_read, Streams.length_leftover] at hlen
  rw [hlen]
  exact Nat.mod_lt _ sizeofMarketDataMessage_pos

/-- The loop stores the frames of what is in the buffer from the offset on. -/
theorem storeMessages_spec (st : Retransmitter) (offset : ℕ) (hle : offset ≤ st.buffered)
    (hsize : st.buffered ≤ st.tcpBuffer.size) :
    ∃ slots, storeMessages st offset = .ok
      (offset + (st.buffered - offset) / sizeofMarketDataMessage * sizeofMarketDataMessage,
        { st with
          slots := slots
          stored := st.stored ++ Streams.frames sizeofMarketDataMessage
            (st.tcpBuffer.read offset (st.buffered - offset)) }) := by
  fun_induction storeMessages st offset with
  | case1 st offset hmore ih =>
    have hrest : st.buffered - offset =
        sizeofMarketDataMessage + (st.buffered - (offset + sizeofMarketDataMessage)) := by omega
    have hmsg : copyFrom st.tcpBuffer offset sizeofMarketDataMessage =
        .ok (st.tcpBuffer.read offset sizeofMarketDataMessage) := if_pos (by omega)
    obtain ⟨slots, hslots⟩ := ih (st.tcpBuffer.read offset sizeofMarketDataMessage)
      (by simp only [store]; omega) hsize
    refine ⟨slots, ?_⟩
    rw [hmsg, ok_bind, hslots]
    simp only [store]
    rw [hrest, Buffer.read_add, Streams.frames_cons sizeofMarketDataMessage_pos
      (Buffer.length_read ..),
      Nat.add_div_left _ sizeofMarketDataMessage_pos, Nat.succ_mul, List.append_assoc,
      List.singleton_append, Nat.add_assoc, Nat.add_comm sizeofMarketDataMessage]
  | case2 st offset hless =>
    have hnone : Streams.frames sizeofMarketDataMessage
        (st.tcpBuffer.read offset (st.buffered - offset)) = [] :=
      Streams.frames_of_lt (by rw [Buffer.length_read]; omega)
    refine ⟨st.slots, ?_⟩
    rw [hnone, List.append_nil, Nat.div_eq_of_lt (by omega), Nat.zero_mul, Nat.add_zero]

/-- What is left over is at the front. -/
theorem shift_spec (st : Retransmitter) {offset : ℕ} (hle : offset ≤ st.buffered)
    (hsize : st.buffered ≤ st.tcpBuffer.size) :
    ∃ tcpBuffer, st.shift offset =
        .ok { st with tcpBuffer := tcpBuffer, buffered := st.buffered - offset } ∧
      tcpBuffer.size = st.tcpBuffer.size ∧ tcpBuffer.read 0 (st.buffered - offset) =
        st.tcpBuffer.read offset (st.buffered - offset) := by
  have hlen := st.tcpBuffer.length_read offset (st.buffered - offset)
  rw [shift]
  split_ifs with hmove
  · refine ⟨st.tcpBuffer.write 0 (st.tcpBuffer.read offset (st.buffered - offset)), ?_, rfl,
      ?_⟩
    · rw [copyFrom, if_pos (by omega), ok_bind, copyTo, if_pos (by omega), ok_bind]
    · have hself := Buffer.read_write_self st.tcpBuffer 0
        (st.tcpBuffer.read offset (st.buffered - offset))
      rwa [hlen] at hself
  · refine ⟨st.tcpBuffer, rfl, rfl, ?_⟩
    rcases Nat.eq_zero_or_pos offset with rfl | hpos
    · rfl
    · rw [show st.buffered - offset = 0 by omega]
      rfl

/-- A piece of the stream is received. -/
theorem Framed.recv (h : Framed st) {piece : List UInt8} (hpiece : st.Receivable piece) :
    ∃ st', st.recv piece = .ok st' ∧ Framed st' ∧ st'.received = st.received ++ piece := by
  have hspace : st.buffered + piece.length ≤ st.tcpBuffer.size := by
    have hle := hpiece.2
    have hlt := h.buffered_lt
    rw [space] at hle
    rw [h.size]
    simp only [maxMsgSize, msgPerPacket, sizeofMarketDataMessage] at *
    omega
  have hread : (st.tcpBuffer.write st.buffered piece).read 0 (st.buffered + piece.length) =
      Streams.leftover sizeofMarketDataMessage st.received ++ piece := by
    rw [Buffer.read_write_append, h.buffered]
  obtain ⟨slots, hstore⟩ := storeMessages_spec { st with
    tcpBuffer := st.tcpBuffer.write st.buffered piece
    buffered := st.buffered + piece.length
    received := st.received ++ piece } 0 (Nat.zero_le _) hspace
  simp only [Nat.sub_zero, Nat.zero_add, hread] at hstore
  obtain ⟨tcpBuffer, hshift, hsize, hfront⟩ := shift_spec { st with
    tcpBuffer := st.tcpBuffer.write st.buffered piece
    buffered := st.buffered + piece.length
    received := st.received ++ piece
    slots := slots
    stored := st.stored ++ Streams.frames sizeofMarketDataMessage
      (Streams.leftover sizeofMarketDataMessage st.received ++ piece) }
    (Nat.div_mul_le_self (st.buffered + piece.length) sizeofMarketDataMessage) hspace
  refine ⟨_, bind_eq_ok.2 ⟨_, if_pos hspace, bind_eq_ok.2 ⟨_, hstore, hshift⟩⟩,
    ⟨hsize.trans h.size, ?_, ?_⟩, rfl⟩
  · rw [h.stored]
    exact (Streams.frames_append sizeofMarketDataMessage_pos _ _).symm
  · have hle := Nat.div_mul_le_self (st.buffered + piece.length) sizeofMarketDataMessage
    rw [hfront, Streams.leftover_append, ← hread, Streams.leftover, Buffer.length_read,
      Buffer.drop_read _ hle, Nat.zero_add]

theorem Framed.recvAll : ∀ {pieces : List (List UInt8)} {st : Retransmitter}, Framed st →
    Runs.Always (fun st piece st' => Retransmitter.recv st piece = .ok st') Receivable st pieces →
    ∃ st', pieces.foldlM Retransmitter.recv st = .ok st' ∧ Framed st' ∧
      st'.received = st.received ++ pieces.flatten
  | [], st, h, _ => ⟨st, rfl, h, (List.append_nil _).symm⟩
  | piece :: pieces, st, h, hpieces => by
    obtain ⟨st₁, hst₁, h₁, hreceived₁⟩ := h.recv hpieces.head
    obtain ⟨st', hst', h', hreceived⟩ := recvAll h₁ (hpieces.tail hst₁)
    refine ⟨st', ?_, h', ?_⟩
    · rw [List.foldlM_cons, hst₁]
      exact hst'
    · rw [hreceived, hreceived₁, List.append_assoc, List.flatten_cons]

/-- However the stream is split, `storeThread` returns from every pass, and it has stored the
frames of what it has received. -/
theorem stores_frames (memory : ℕ → UInt8) (slots : ℕ → List UInt8)
    {pieces : List (List UInt8)}
    (hpieces : Runs.Always (fun st piece st' => recv st piece = .ok st') Receivable
      (init memory slots) pieces) :
    ∃ st, pieces.foldlM recv (init memory slots) = .ok st ∧
      st.stored = Streams.frames sizeofMarketDataMessage pieces.flatten := by
  obtain ⟨st, hst, h, hreceived⟩ := (framed_init memory slots).recvAll hpieces
  refine ⟨st, hst, ?_⟩
  rw [h.stored, hreceived]
  rfl

/-! ## The loop -/

/-- What `recv` returns : bytes, `EAGAIN` or `EWOULDBLOCK`, `EINTR`, another error, or 0. -/
inductive RecvResult
  | data (piece : List UInt8)
  | again
  | interrupted
  | failed
  | closed
  deriving DecidableEq

/-- The bytes that `recv` has brought. -/
def RecvResult.bytes : RecvResult → List UInt8
  | data piece => piece
  | _ => []

/-- A pass of the loop, and whether it leaves the loop. -/
def storePass (st : Retransmitter) : RecvResult → Except Fault (Bool × Retransmitter)
  | .data piece => do
    let st ← st.recv piece
    .ok (false, st)
  | .again | .interrupted => .ok (false, st)
  | .failed | .closed => .ok (true, st)

/-- `storeThread` with the results of its calls of `recv`, and whether it has left its loop. -/
def storeThread : Retransmitter → List RecvResult → Except Fault (Bool × Retransmitter)
  | st, [] => .ok (false, st)
  | st, result :: results => do
    let (leaves, st) ← st.storePass result
    if leaves then .ok (true, st) else storeThread st results

/-- A result while the stream goes on : a piece that fits the space `recv` is offered, or
nothing yet. -/
def Delivers (st : Retransmitter) : RecvResult → Prop
  | .data piece => st.Receivable piece
  | .again | .interrupted => True
  | .failed | .closed => False

/-- A message is written to the slot of its number. -/
def writeSlot (slots : ℕ → List UInt8) (msg : List UInt8) : ℕ → List UInt8 :=
  Function.update slots (seqNumOf msg % slotCount) msg

/-- The slots hold the messages stored so far, over what they held at first. -/
def Slotted (slots₀ : ℕ → List UInt8) (st : Retransmitter) : Prop :=
  st.slots = st.stored.foldl writeSlot slots₀

variable {slots₀ : ℕ → List UInt8}

theorem Slotted.store (h : Slotted slots₀ st) (msg : List UInt8) :
    Slotted slots₀ (st.store msg) := by
  have hmask : seqNumOf msg &&& (slotCount - 1) = seqNumOf msg % slotCount :=
    Nat.and_two_pow_sub_one_eq_mod _ 20
  simp only [Slotted, Retransmitter.store, hmask, List.foldl_append, List.foldl_cons,
    List.foldl_nil, writeSlot]
  rw [h]

theorem Slotted.storeMessages {offset : ℕ} {p : ℕ × Retransmitter} (h : Slotted slots₀ st)
    (hst : storeMessages st offset = .ok p) : Slotted slots₀ p.2 := by
  fun_induction Retransmitter.storeMessages st offset with
  | case1 st offset hmore ih =>
    obtain ⟨msg, -, hrest⟩ := bind_eq_ok.1 hst
    exact ih msg (h.store msg) hrest
  | case2 st offset hless =>
    obtain rfl := Except.ok.inj hst
    exact h

theorem Slotted.shift {offset : ℕ} {st' : Retransmitter} (h : Slotted slots₀ st)
    (hst : st.shift offset = .ok st') : Slotted slots₀ st' := by
  rw [Retransmitter.shift] at hst
  split_ifs at hst
  · obtain ⟨_, -, hst⟩ := bind_eq_ok.1 hst
    obtain ⟨_, -, hst⟩ := bind_eq_ok.1 hst
    obtain rfl := Except.ok.inj hst
    exact h
  · obtain rfl := Except.ok.inj hst
    exact h

theorem Slotted.recv {piece : List UInt8} {st' : Retransmitter} (h : Slotted slots₀ st)
    (hst : st.recv piece = .ok st') : Slotted slots₀ st' := by
  obtain ⟨tcpBuffer, -, hst⟩ := bind_eq_ok.1 hst
  obtain ⟨p, hloop, hshift⟩ := bind_eq_ok.1 hst
  have h₁ : Slotted slots₀ { st with
      tcpBuffer := tcpBuffer
      buffered := st.buffered + piece.length
      received := st.received ++ piece } := h
  exact (h₁.storeMessages hloop).shift hshift

/-- A pass of the loop while the stream goes on. -/
theorem Framed.storePass (h : Framed st) (hslots : Slotted slots₀ st) {result : RecvResult}
    (hresult : st.Delivers result) :
    ∃ st', st.storePass result = .ok (false, st') ∧ Framed st' ∧ Slotted slots₀ st' ∧
      st'.received = st.received ++ result.bytes := by
  rcases result with piece | _ | _ | _ | _
  · obtain ⟨st', hst', h', hreceived⟩ := h.recv hresult
    exact ⟨st', bind_eq_ok.2 ⟨st', hst', rfl⟩, h', hslots.recv hst', hreceived⟩
  · exact ⟨st, rfl, h, hslots, (List.append_nil _).symm⟩
  · exact ⟨st, rfl, h, hslots, (List.append_nil _).symm⟩
  · exact absurd hresult id
  · exact absurd hresult id

/-- The passes of the loop that go on. -/
def Passes (st : Retransmitter) (result : RecvResult) (st' : Retransmitter) : Prop :=
  st.storePass result = .ok (false, st')

theorem Framed.storeThread : ∀ {results : List RecvResult} {st : Retransmitter}, Framed st →
    Slotted slots₀ st → Runs.Always Passes Delivers st results →
    ∃ st', st.storeThread results = .ok (false, st') ∧ Framed st' ∧ Slotted slots₀ st' ∧
      st'.received = st.received ++ results.flatMap RecvResult.bytes
  | [], st, h, hslots, _ => ⟨st, rfl, h, hslots, (List.append_nil _).symm⟩
  | result :: results, st, h, hslots, hresults => by
    obtain ⟨st₁, hst₁, h₁, hslots₁, hreceived₁⟩ := h.storePass hslots hresults.head
    obtain ⟨st', hst', h', hslots', hreceived⟩ :=
      Framed.storeThread h₁ hslots₁ (hresults.tail hst₁)
    refine ⟨st', bind_eq_ok.2 ⟨_, hst₁, hst'⟩, h', hslots', ?_⟩
    rw [hreceived, hreceived₁, List.append_assoc, List.flatMap_cons]

theorem storeThread_append : ∀ {results : List RecvResult} {st st' : Retransmitter}
    (results' : List RecvResult), st.storeThread results = .ok (false, st') →
    st.storeThread (results ++ results') = st'.storeThread results'
  | [], st, st', _, h => by
    obtain ⟨-, rfl⟩ := Prod.mk.inj (Except.ok.inj h)
    rfl
  | result :: results, st, st', results', h => by
    obtain ⟨⟨leaves, st₁⟩, hst₁, h⟩ := bind_eq_ok.1 h
    rw [List.cons_append, storeThread, hst₁, ok_bind]
    cases leaves with
    | true => simp at h
    | false => exact storeThread_append results' h

/-- On a stream of whole messages, however `recv` splits it and however often it returns
nothing, `storeThread` faults in no pass, stores the messages of the stream in order, a later
one over an earlier one of the same slot, and leaves its loop when the stream ends. After every
pass it has stored the messages that have come in whole, less than a message is left over, and
there is space to offer. -/
theorem storeThread_stores (memory : ℕ → UInt8) (slots : ℕ → List UInt8)
    (msgs : List MessageBytes) {results : List RecvResult}
    (hresults : Runs.Always Passes Delivers (init memory slots) results)
    (hstream : results.flatMap RecvResult.bytes = (bytesOf msgs).flatten) :
    (∃ st, storeThread (init memory slots) (results ++ [.closed]) = .ok (true, st) ∧
      st.stored = bytesOf msgs ∧ st.slots = (bytesOf msgs).foldl writeSlot slots) ∧
    ∀ pre post, results = pre ++ post →
      ∃ st, storeThread (init memory slots) pre = .ok (false, st) ∧
        st.stored = Streams.frames sizeofMarketDataMessage (pre.flatMap RecvResult.bytes) ∧
        st.buffered ≤ 63 ∧ 0 < st.space := by
  have hframed := framed_init memory slots
  have hslots : Slotted slots (init memory slots) := rfl
  constructor
  · obtain ⟨st, hst, h, hslots', hreceived⟩ := hframed.storeThread hslots hresults
    have hstored : st.stored = bytesOf msgs := by
      rw [h.stored, hreceived, hstream]
      exact Streams.frames_flatten sizeofMarketDataMessage_pos fun f hf => length_of_mem_bytesOf hf
    refine ⟨st, ?_, hstored, ?_⟩
    · rw [storeThread_append _ hst]
      rfl
    · rw [← hstored]
      exact hslots'
  · rintro pre post rfl
    obtain ⟨st, hst, h, -, hreceived⟩ := hframed.storeThread hslots hresults.left
    have hlt := h.buffered_lt
    refine ⟨st, hst, ?_, Nat.le_of_lt_succ hlt, ?_⟩
    · rw [h.stored, hreceived]
      rfl
    · simp only [space, maxMsgSize, msgPerPacket, sizeofMarketDataMessage] at hlt ⊢
      omega

/-- A message in two pieces, with nothing in between. -/
def twoPieces : List RecvResult :=
  [.data (List.replicate 24 0), .again, .data (List.replicate 40 0)]

theorem storeThread_twoPieces :
    let msg : MessageBytes := ⟨List.replicate 64 0, rfl⟩
    Runs.Always Passes Delivers (init (fun _ => 1) fun _ => []) twoPieces ∧
    ∃ st, storeThread (init (fun _ => 1) fun _ => []) (twoPieces ++ [.closed]) =
        .ok (true, st) ∧
      st.stored = bytesOf [msg] := by
  intro msg
  have hframed := framed_init (fun _ => 1) fun _ => []
  have hsmall : ∀ {st : Retransmitter} {n : ℕ}, Framed st → 0 < n → n ≤ 64 →
      st.Receivable (List.replicate n 0) := by
    intro st n h hpos hle
    have hlt := h.buffered_lt
    rw [Receivable, List.length_replicate]
    simp only [space, maxMsgSize, msgPerPacket, sizeofMarketDataMessage] at hlt ⊢
    omega
  have hresults : Runs.Always Passes Delivers (init (fun _ => 1) fun _ => []) twoPieces := by
    refine .cons (hsmall hframed (by decide) (by decide)) fun st₁ h₁ => .cons trivial
      fun st₂ h₂ => .cons ?_ fun _ _ => .nil _
    obtain ⟨-, rfl⟩ := Prod.mk.inj (Except.ok.inj h₂)
    have hfirst : (init (fun _ => 1) fun _ => []).Delivers (.data (List.replicate 24 0)) :=
      hsmall hframed (by decide) (by decide)
    obtain ⟨_, hst₁, hframed₁, -⟩ := hframed.storePass rfl hfirst
    obtain ⟨-, rfl⟩ := Prod.mk.inj (Except.ok.inj (hst₁.symm.trans h₁))
    exact hsmall hframed₁ (by decide) (by decide)
  obtain ⟨⟨st, hst, hstored, -⟩, -⟩ :=
    storeThread_stores (fun _ => 1) (fun _ => []) [msg] hresults (by decide)
  exact ⟨hresults, st, hst, hstored⟩

end Retransmitter

end TradeX
