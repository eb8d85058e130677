import TradeX.Packing

/-!
# The stream to the retransmitter

`sendThread` with the sends on its non-blocking socket. After each pass of the packing loops it
sends the bytes of the batch, as many at a time as the kernel takes. When the kernel would
block, it leaves the rest of the batch and goes on with the next one, wherever in a message that
is. The receiver cuts the stream into messages by their size only.

`aligned_run` : the stream stays one of whole messages as long as no batch is begun in the
middle of a message. `misaligned` is what happens otherwise.
-/

namespace TradeX

/-- Where `sendThread` is : in the packing loops, or with `sentTotal` of `tcpOffset` bytes sent. -/
inductive SendPc
  | packing
  | sending (tcpOffset sentTotal : ℕ)

/-- `packed` are the messages that the loops have packed, and `sent` the bytes that the kernel
has taken. -/
structure SendThread where
  batch : Batch
  pc : SendPc
  packed : List MessageBytes
  sent : List UInt8

namespace SendThread

/-- The thread at its start, with memory that holds anything. -/
def init (memory tcpMemory : ℕ → UInt8) : SendThread :=
  ⟨.init memory tcpMemory 64, .packing, [], []⟩

/-- A pass of the packing loops, a send that takes `n` bytes, or one that would block. The
datagrams have been sent before the first send. -/
inductive Action
  | pass (pop : ℕ → Option MessageBytes)
  | send (n : ℕ)
  | wouldBlock

/-- A pass of the loops that pack, or a call of `send`. -/
def step (st : SendThread) : Action → Option SendThread
  | .pass pop =>
    match st.pc, st.batch.pack pop with
    | .packing, .ok s => some
      { batch := s.batch
        pc := if s.packetsToSend = 0 then .packing else .sending s.tcpOffset 0
        packed := st.packed ++ s.popped
        sent := st.sent }
    | _, _ => none
  | .send n =>
    match st.pc with
    | .sending tcpOffset sentTotal =>
      if sentTotal < tcpOffset ∧ n ≤ tcpOffset - sentTotal then some { st with
        pc := if sentTotal + n < tcpOffset then .sending tcpOffset (sentTotal + n) else .packing
        sent := st.sent ++ st.batch.tcpBuffer.read sentTotal n }
      else none
    | .packing => none
  | .wouldBlock =>
    match st.pc with
    | .sending _ _ => some { st with pc := .packing }
    | .packing => none

/-- Passes and calls, one after the other. -/
def run (st : SendThread) (actions : List Action) : Option SendThread :=
  actions.foldlM step st

/-- A stream is one of whole messages, some of those packed and in their order, but for the end
of the last. -/
def Aligned (packed : List MessageBytes) (sent : List UInt8) : Prop :=
  ∃ G, G.Sublist packed ∧ sent <+: (bytesOf G).flatten ∧
    (bytesOf G).flatten.length < sent.length + sizeofMarketDataMessage

/-- The send is the first of a batch that takes bytes. -/
def begins (st : SendThread) : Action → Bool
  | .send n =>
    match st.pc with
    | .sending _ 0 => 0 < n
    | _ => false
  | _ => false

/-- A batch is not begun in the middle of a message. -/
def AtBoundary (st : SendThread) (a : Action) : Prop :=
  st.begins a → sizeofMarketDataMessage ∣ st.sent.length

instance (st : SendThread) (a : Action) : Decidable (AtBoundary st a) :=
  inferInstanceAs (Decidable (_ → _))

/-! ## Whole messages -/

theorem length_flatten_bytesOf (l : List MessageBytes) :
    (bytesOf l).flatten.length = l.length * sizeofMarketDataMessage := by
  rw [Streams.length_flatten fun f hf => length_of_mem_bytesOf hf, bytesOf, List.length_map]

theorem flatten_bytesOf_take (l : List MessageBytes) (k : ℕ) :
    (bytesOf (l.take k)).flatten = (bytesOf l).flatten.take (k * sizeofMarketDataMessage) := by
  rw [Streams.flatten_take fun f hf => length_of_mem_bytesOf hf, bytesOf, bytesOf, List.map_take]

theorem Aligned.mono {packed packed' : List MessageBytes} {sent : List UInt8}
    (h : Aligned packed sent) (hsub : packed.Sublist packed') : Aligned packed' sent := by
  obtain ⟨G, hG, hpre, hlen⟩ := h
  exact ⟨G, hG.trans hsub, hpre, hlen⟩

/-- A stream that ends with a message is one of whole messages. -/
theorem Aligned.whole {packed : List MessageBytes} {sent : List UInt8} (h : Aligned packed sent)
    (hdvd : sizeofMarketDataMessage ∣ sent.length) :
    ∃ G, G.Sublist packed ∧ sent = (bytesOf G).flatten := by
  obtain ⟨G, hG, hpre, hlen⟩ := h
  refine ⟨G, hG, hpre.eq_of_length ?_⟩
  have hle := hpre.length_le
  obtain ⟨k, hk⟩ := hdvd
  rw [length_flatten_bytesOf] at hlen hle ⊢
  simp only [sizeofMarketDataMessage] at *
  omega

/-- Whole messages and the beginning of a batch. -/
theorem aligned_append {F before : List MessageBytes} (hF : F.Sublist before)
    (cur : List MessageBytes) (t : ℕ) :
    Aligned (before ++ cur) ((bytesOf F).flatten ++ (bytesOf cur).flatten.take t) := by
  -- the messages of the batch that have been begun
  let k := (t + (sizeofMarketDataMessage - 1)) / sizeofMarketDataMessage
  have hk : t ≤ k * sizeofMarketDataMessage ∧
      k * sizeofMarketDataMessage < t + sizeofMarketDataMessage := by
    simp only [k, sizeofMarketDataMessage]
    omega
  refine ⟨F ++ cur.take k, hF.append (List.take_sublist k cur), ?_, ?_⟩
  · rw [bytesOf_append, List.flatten_append, flatten_bytesOf_take]
    exact (List.prefix_append_right_inj _).2 (List.take_prefix_take_left hk.1)
  · rw [bytesOf_append, List.flatten_append, List.length_append, List.length_append,
      flatten_bytesOf_take, List.length_take, List.length_take, length_flatten_bytesOf]
    omega

/-! ## What is kept -/

/-- The batch that is sent, and what has been sent of it and before it. -/
structure Sending (st : SendThread) (tcpOffset sentTotal : ℕ) (before cur : List MessageBytes) :
    Prop where
  packed : st.packed = before ++ cur
  offset : tcpOffset = cur.length * sizeofMarketDataMessage
  buffer : st.batch.tcpBuffer.read 0 tcpOffset = (bytesOf cur).flatten
  lt : sentTotal < tcpOffset
  sent : sentTotal = 0 ∧ Aligned before st.sent ∨ ∃ F, F.Sublist before ∧
    st.sent = (bytesOf F).flatten ++ (bytesOf cur).flatten.take sentTotal

/-- The batch is well formed, and what has been sent is made of whole messages, but for the end of
what is being sent. -/
structure Inv (st : SendThread) : Prop where
  wf : st.batch.WF
  aligned : Aligned st.packed st.sent
  sending : ∀ tcpOffset sentTotal, st.pc = .sending tcpOffset sentTotal →
    ∃ before cur, Sending st tcpOffset sentTotal before cur

variable {st st' : SendThread} {a : Action}

theorem inv_init (memory tcpMemory : ℕ → UInt8) : Inv (init memory tcpMemory) :=
  ⟨Batch.wf_init .., ⟨[], .refl _, List.prefix_rfl, sizeofMarketDataMessage_pos⟩, nofun⟩

theorem Inv.pass (h : Inv st) {pop : ℕ → Option MessageBytes}
    (hstep : st.step (.pass pop) = some st') : Inv st' := by
  obtain ⟨s, hs, hready, hcap⟩ := h.wf.pack pop
  simp only [step, hs] at hstep
  split at hstep
  next s' hpc hs' =>
    cases hs'
    cases hstep
    have haligned := h.aligned.mono (List.sublist_append_left st.packed s.popped)
    refine ⟨hready.wf, haligned, fun tcpOffset sentTotal hsending => ?_⟩
    split_ifs at hsending with hpackets
    cases hsending
    refine ⟨st.packed, s.popped, rfl, hready.tcpOffset, ?_, ?_, Or.inl ⟨rfl, h.aligned⟩⟩
    · rw [hready.tcpOffset]
      exact hready.tcpBuffer
    · have hused := hready.used 0 (Nat.pos_of_ne_zero hpackets)
      rw [hready.tcpOffset]
      exact Nat.mul_pos (by omega) sizeofMarketDataMessage_pos
  next => cases hstep

/-- What has been sent when a batch goes on : whole messages, and the beginning of the batch. -/
theorem Sending.exists_whole {tcpOffset sentTotal n : ℕ} {before cur : List MessageBytes}
    (h : Sending st tcpOffset sentTotal before cur) (hpc : st.pc = .sending tcpOffset sentTotal)
    (hn : 0 < n) (hstart : AtBoundary st (.send n)) : ∃ F, F.Sublist before ∧
      st.sent = (bytesOf F).flatten ++ (bytesOf cur).flatten.take sentTotal := by
  rcases h.sent with ⟨rfl, haligned⟩ | hF
  · obtain ⟨F, hF, hsent⟩ := haligned.whole (hstart (by simp [begins, hpc, hn]))
    exact ⟨F, hF, by rw [hsent, List.take_zero, List.append_nil]⟩
  · exact hF

/-- The bytes of a send are the next of the batch. -/
theorem Sending.take_add {tcpOffset sentTotal n : ℕ} {before cur : List MessageBytes}
    (h : Sending st tcpOffset sentTotal before cur) (hn : n ≤ tcpOffset - sentTotal) :
    (bytesOf cur).flatten.take sentTotal ++ st.batch.tcpBuffer.read sentTotal n =
      (bytesOf cur).flatten.take (sentTotal + n) := by
  rw [List.take_add, ← h.buffer, Buffer.drop_read _ h.lt.le, Buffer.take_read _ hn, Nat.zero_add]

theorem Inv.send (h : Inv st) {n : ℕ} (hstart : AtBoundary st (.send n))
    (hstep : st.step (.send n) = some st') : Inv st' := by
  simp only [step] at hstep
  split at hstep
  next tcpOffset sentTotal hpc =>
    obtain ⟨⟨hlt, hn⟩, hstep⟩ := Option.ite_none_right_eq_some.1 hstep
    cases hstep
    obtain ⟨before, cur, hcur⟩ := h.sending _ _ hpc
    rcases Nat.eq_zero_or_pos n with rfl | hpos
    · -- nothing is sent
      rw [if_pos (by omega), Buffer.read_zero, List.append_nil]
      refine ⟨h.wf, h.aligned, fun offset total hsending => ?_⟩
      cases hsending
      exact ⟨before, cur, hcur.packed, hcur.offset, hcur.buffer, hlt, hcur.sent⟩
    · obtain ⟨F, hF, hsent⟩ := hcur.exists_whole hpc hpos hstart
      rw [hsent, List.append_assoc, hcur.take_add hn]
      refine ⟨h.wf, ?_, fun offset total hsending => ?_⟩
      · simp only [hcur.packed]
        exact aligned_append hF cur _
      · split_ifs at hsending with hmore
        cases hsending
        exact ⟨before, cur, hcur.packed, hcur.offset, hcur.buffer, hmore,
          Or.inr ⟨F, hF, rfl⟩⟩
  next => cases hstep

theorem Inv.step (h : Inv st) (hstart : AtBoundary st a) (hstep : st.step a = some st') :
    Inv st' := by
  cases a with
  | pass pop => exact h.pass hstep
  | send n => exact h.send hstart hstep
  | wouldBlock =>
    simp only [SendThread.step] at hstep
    split at hstep
    next =>
      cases hstep
      exact ⟨h.wf, h.aligned, nofun⟩
    next => cases hstep

/-- The receiver's frames of a stream of whole messages are messages. -/
theorem Aligned.frames {packed : List MessageBytes} {sent received : List UInt8}
    (h : Aligned packed sent) (hreceived : received <+: sent) :
    ∃ G, G.Sublist packed ∧ Streams.frames sizeofMarketDataMessage received = bytesOf G := by
  obtain ⟨G, hG, hpre, -⟩ := h
  obtain ⟨rest, hrest⟩ := hreceived.trans hpre
  have hframes := Streams.frames_append sizeofMarketDataMessage_pos received rest
  rw [hrest, Streams.frames_flatten sizeofMarketDataMessage_pos fun f hf =>
    length_of_mem_bytesOf hf] at hframes
  refine ⟨G.take (Streams.frames sizeofMarketDataMessage received).length,
    (List.take_sublist _ G).trans hG, ?_⟩
  rw [bytesOf, List.map_take, ← bytesOf, hframes, List.take_left']
  rfl

/-- If no batch is begun in the middle of a message, the stream is always one of whole messages,
and however it is split, `storeThread` stores messages that have been packed, in their order. -/
theorem aligned_run (memory tcpMemory : ℕ → UInt8) {actions : List Action}
    (hstart : Runs.Always (fun st a st' => step st a = some st') AtBoundary (init memory tcpMemory)
      actions) (hrun : (init memory tcpMemory).run actions = some st) :
    Aligned st.packed st.sent ∧ ∀ memory slots pieces, Runs.Always
      (fun rt piece rt' => Retransmitter.recv rt piece = .ok rt') Retransmitter.Receivable
        (.init memory slots) pieces → pieces.flatten <+: st.sent →
      ∃ rt, pieces.foldlM Retransmitter.recv (.init memory slots) = .ok rt ∧
        ∃ G, G.Sublist st.packed ∧ rt.stored = bytesOf G := by
  have h : Inv st := Runs.Steps.invariant (I := Inv) (fun h ha hst => h.step ha hst)
    (inv_init memory tcpMemory) hstart (Runs.steps_iff_some.2 hrun)
  refine ⟨h.aligned, fun memory slots pieces hpieces hpre => ?_⟩
  obtain ⟨rt, hrt, hstored⟩ := Retransmitter.stores_frames memory slots hpieces
  obtain ⟨G, hG, hframes⟩ := h.aligned.frames hpre
  exact ⟨rt, hrt, G, hG, hstored.trans hframes⟩

/-- A message with number `k`, and `b` for the bytes of its other fields. -/
def message (k b : UInt8) : MessageBytes where
  bytes := List.replicate 32 b ++ k :: List.replicate 31 0
  size := by simp [sizeofMarketDataMessage]

/-- A pass that finds these messages in the queue. -/
def passOf (l : List MessageBytes) : Action :=
  .pass fun k => l[k]?

/-- The kernel would block after one of two messages, and then within a message. -/
def wholeMessages : List Action :=
  [passOf [message 0 5, message 1 6], .send 20, .send 44, .wouldBlock, passOf [message 2 7],
    .send 40, .wouldBlock]

theorem aligned_run_wholeMessages : ∃ st, (init (fun _ => 0) fun _ => 0).run wholeMessages =
    some st ∧
    st.sent.length = 104 ∧ Aligned st.packed st.sent ∧ ∀ memory slots pieces, Runs.Always
      (fun rt piece rt' => Retransmitter.recv rt piece = .ok rt') Retransmitter.Receivable
        (.init memory slots) pieces → pieces.flatten <+: st.sent →
      ∃ rt, pieces.foldlM Retransmitter.recv (.init memory slots) = .ok rt ∧
        ∃ G, G.Sublist st.packed ∧ rt.stored = bytesOf G := by
  have hview : ((init (fun _ => 0) fun _ => 0).run wholeMessages).map (fun st => st.sent.length) =
      some 104 := by decide +kernel
  have hstart : Runs.allowed step AtBoundary (init (fun _ => 0) fun _ => 0) wholeMessages =
      true := by
    decide +kernel
  obtain ⟨st, hrun, hlen⟩ := Option.map_eq_some_iff.1 hview
  exact ⟨st, hrun, hlen, aligned_run _ _ (Runs.always_of_allowed hstart) hrun⟩

/-- The kernel would block within the first message, and takes the next. -/
def cutMessage : List Action :=
  [passOf [message 0 5], .send 10, .wouldBlock, passOf [message 1 6], .send 64]

/-- The stream is not one of whole messages, and the receiver stores one that has not been
packed. -/
theorem misaligned : ∃ st, (init (fun _ => 0) fun _ => 0).run cutMessage = some st ∧
    ¬ Aligned st.packed st.sent ∧
    ∃ f ∈ Streams.frames sizeofMarketDataMessage st.sent, f ∉ bytesOf st.packed := by
  have hview : ((init (fun _ => 0) fun _ => 0).run cutMessage).map
      (fun st => (st.packed, st.sent)) =
      some ([message 0 5, message 1 6], (message 0 5).bytes.take 10 ++ (message 1 6).bytes) := by
    decide +kernel
  obtain ⟨st, hrun, hst⟩ := Option.map_eq_some_iff.1 hview
  obtain ⟨hpacked, hsent⟩ := Prod.mk.inj hst
  refine ⟨st, hrun, ?_, ?_⟩ <;> rw [hpacked, hsent]
  · rintro ⟨G, hG, hpre, -⟩
    have hle := hpre.length_le
    rw [length_flatten_bytesOf] at hle
    have hall : G.length = 2 := by
      have hle' := hG.length_le
      have hlen : ((message 0 5).bytes.take 10 ++ (message 1 6).bytes).length = 74 := by decide
      rw [hlen] at hle
      simp only [sizeofMarketDataMessage, List.length_cons, List.length_nil] at hle hle'
      omega
    rw [hG.eq_of_length hall] at hpre
    exact absurd hpre (by decide)
  · exact ⟨(message 0 5).bytes.take 10 ++ (message 1 6).bytes.take 54, by decide +kernel, by
      decide +kernel⟩

end SendThread

end TradeX
