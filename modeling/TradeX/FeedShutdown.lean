import TradeX.MarketFeed
import TradeX.Packing
import TradeX.TradeProcessor

/-!
# The end of the feed

`readThread` and `sendThread` of `MarketFeedReader` to their ends, with every load and store of
`flag`, of `done` and of the indices of the queue as a step of its own. What a thread does with
its own memory is part of the step before.

`sendThread` leaves its loop when it has found `done` set and then, by two more loads, the queue
empty. By the time it has found `done` set nothing more is pushed, and the head is its own, so the
two loads are as good as one (`Inv.compare`), whichever comes first. On the way the messages that
have been popped are in a batch that has been sent, or in the one being packed (`Inv.cut`).
`nothing_stranded` is what follows at the end, and `sendThread_moves` says that no step before it
goes out of the buffers.
-/

namespace TradeX

/-- Where `readThread` is : before the test of `flag`; at ring `i`, with `reads` messages of it
pushed in this round; in `push`; before the store to `done`; at its end. -/
inductive ReaderPc
  | testing
  | reading (i reads : ℕ)
  | pushing (i reads : ℕ)
  | ending
  | finished
  deriving DecidableEq, Repr

/-- Where `sendThread` is : before the load of `done`; in `empty`, with none or one of the indices
loaded; in the packing loops, before `pop` or in it; at `flush`; in the loop of `sendmmsg`, with
`sent` packets sent; in the loop of `send`; after its loop. -/
inductive SenderPc
  | testing
  | comparing
  | headLoaded (head : ℕ)
  | tailLoaded (tail : ℕ)
  | packing (p msgsPacked : ℕ)
  | popping (p msgsPacked : ℕ)
  | flushing
  | sending (sent : ℕ)
  | streaming (sentTotal : ℕ)
  | exited
  deriving DecidableEq, Repr

/-- `sendThread` is not at a batch that has still to be sent. -/
def SenderPc.Idle : SenderPc → Prop
  | .packing _ _ => False
  | .popping _ _ => False
  | .flushing => False
  | .sending _ => False
  | _ => True

/-- The head of the loop over the packets. -/
def SenderPc.packet (capacity p : ℕ) : SenderPc :=
  if p < capacity then .packing p 0 else .flushing

/-- After a message has been packed : the packet goes on, or it is full and is given its length. -/
def Packing.next (s : Packing) (p msgsPacked : ℕ) : Except Fault (SenderPc × Packing) :=
  if msgsPacked < msgPerPacket then .ok (.packing p msgsPacked, s)
  else do
    let batch ← s.batch.setIovLen p (msgsPacked * sizeofMarketDataMessage)
    .ok (.packet batch.capacity (p + 1),
      { s with batch := batch, packetsToSend := s.packetsToSend + 1 })

/-- The threads and what they share. `batches` are the datagrams of the batches that have been
sent. -/
structure FeedThreads where
  queue : QueueThreads MessageBytes
  flag : Bool
  done : Bool
  reader : ReaderPc
  sender : SenderPc
  packing : Packing
  batches : List (List (List UInt8))

namespace FeedThreads

/-- The two threads at their start, with memory that holds anything. -/
def init (array : ℕ → MessageBytes) (memory tcpMemory : ℕ → UInt8) : FeedThreads where
  queue := .init array
  flag := true
  done := false
  reader := .testing
  sender := .testing
  packing := ⟨.init memory tcpMemory 64, 0, 0, []⟩
  batches := []

/-- The next step of `readThread`. `next` is the message that `formatMarketData` makes of the next
trade of the ring, if `any_new_trade`. -/
def readThread (st : FeedThreads) (next : Option MessageBytes) : Option FeedThreads :=
  match st.reader with
  | .testing => some { st with reader := if st.flag = false then .ending else .reading 0 0 }
  | .reading i reads =>
    if i < TradeProcessor.totalRingBufferCount then
      match next with
      | some msg =>
        if reads < 10 then (st.queue.callPush msg).map fun queue =>
          { st with queue := queue, reader := .pushing i (reads + 1) }
        else some { st with reader := .reading (i + 1) 0 }
      | none => some { st with reader := .reading (i + 1) 0 }
    else some { st with reader := .testing }
  | .pushing i reads =>
    (st.queue.produce (SpscQueue.indexing queueBufferSize)).map fun queue => { st with
      queue := queue
      reader := if queue.producer.result?.isSome then .reading i reads else .pushing i reads }
  | .ending => some { st with done := true, reader := .finished }
  | .finished => none

/-- The body of the loop of `sendThread` is entered. -/
def startPass (st : FeedThreads) : FeedThreads :=
  { st with
    sender := .packet st.packing.batch.capacity 0
    packing := ⟨st.packing.batch, 0, 0, []⟩ }

/-- The next step of `sendThread`, up to the sends. Which of its two loads `empty` makes first is
up to the compiler. -/
def sendThread (st : FeedThreads) (tailFirst : Bool) : Option FeedThreads :=
  match st.sender with
  | .testing => some (if st.done = false then st.startPass else { st with sender := .comparing })
  | .comparing => some { st with
      sender := if tailFirst then .tailLoaded st.queue.tail else .headLoaded st.queue.head }
  | .headLoaded head =>
    some (if head = st.queue.tail then { st with sender := .exited } else st.startPass)
  | .tailLoaded tail =>
    some (if st.queue.head = tail then { st with sender := .exited } else st.startPass)
  | .packing p msgsPacked => st.queue.callPop.map fun queue =>
      { st with queue := queue, sender := .popping p msgsPacked }
  | .popping p msgsPacked => do
    let queue ← st.queue.consume (SpscQueue.indexing queueBufferSize)
    match queue.consumer.result? with
    | none => some { st with queue := queue }
    | some none => some { st with queue := queue, sender := .flushing }
    | some (some msg) =>
      let s ← (st.packing.pack p msgsPacked msg).toOption
      let next ← (s.next p (msgsPacked + 1)).toOption
      some { st with queue := queue, sender := next.1, packing := next.2 }
  | .flushing => do
    let s ← st.packing.flush.toOption
    some { st with packing := s, sender := if s.packetsToSend = 0 then .testing else .sending 0 }
  | .sending _ => none
  | .streaming _ => none
  | .exited => none

/-- `sendmmsg` or `send` has taken `n` packets or bytes of what there is to send. -/
def took (st : FeedThreads) (n : ℕ) : Option FeedThreads :=
  match st.sender with
  | .sending sent =>
    if sent + n < st.packing.packetsToSend then some { st with sender := .sending (sent + n) }
    else if sent + n = st.packing.packetsToSend then some { st with
      sender := .streaming 0
      batches := st.batches ++ [st.packing.batch.datagrams st.packing.packetsToSend] }
    else none
  | .streaming sentTotal =>
    if sentTotal + n < st.packing.tcpOffset then some
      { st with sender := .streaming (sentTotal + n) }
    else if sentTotal + n = st.packing.tcpOffset then some { st with sender := .testing }
    else none
  | _ => none

/-- What happens next : `flag` is cleared; a thread takes a step; a send takes packets or bytes;
`sendmmsg` is interrupted; `send` would block; one of them fails. -/
inductive Action
  | clearFlag
  | readThread (next : Option MessageBytes)
  | sendThread (tailFirst : Bool)
  | took (n : ℕ)
  | interrupted
  | wouldBlock
  | failed
  deriving DecidableEq

/-- A step of a thread, if it can be taken. -/
def step (st : FeedThreads) : Action → Option FeedThreads
  | .clearFlag => some { st with flag := false }
  | .readThread next => st.readThread next
  | .sendThread tailFirst => st.sendThread tailFirst
  | .took n => st.took n
  | .interrupted =>
    match st.sender with
    | .sending _ => some st
    | _ => none
  | .wouldBlock =>
    match st.sender with
    | .streaming _ => some { st with sender := .testing }
    | _ => none
  | .failed =>
    match st.sender with
    | .sending _ => some { st with sender := .exited }
    | .streaming _ => some { st with sender := .exited }
    | _ => none

/-- The threads take steps in any order. -/
def run (st : FeedThreads) (actions : List Action) : Option FeedThreads :=
  actions.foldlM step st

/-- The messages of a batch. -/
def messagesOf (batch : List (List UInt8)) : List (List UInt8) :=
  batch.flatMap Listener.messages

/-- Every message that the queue has accepted has been popped, and the batches, one after the
other, hold these messages. -/
structure Delivered (st : FeedThreads) : Prop where
  popped : st.queue.popped = st.queue.accepted
  batches : (st.batches.map messagesOf).flatten = bytesOf st.queue.accepted

end FeedThreads

/-! ## The packing loops -/

namespace Packing

/-- The loops are before the message `m` of packet `p`. -/
structure AtMessage (s : Packing) (p m : ℕ) : Prop where
  packed : Packed (fun i => s.popped[i]?) s
  packets : s.packetsToSend = p
  place : p * msgPerPacket + m = s.popped.length
  m_lt : m < msgPerPacket
  p_lt : p < s.batch.capacity

/-- The loops have been left. -/
structure AtFlush (s : Packing) : Prop where
  packed : Packed (fun i => s.popped[i]?) s
  packets_le : s.packetsToSend ≤ s.batch.capacity
  le : s.packetsToSend * msgPerPacket ≤ s.popped.length
  lt : s.popped.length < (s.packetsToSend + 1) * msgPerPacket
  all : s.packetsToSend = s.batch.capacity → s.popped.length = s.batch.capacity * msgPerPacket

/-- What the loops have done, where `sendThread` is in them or sends what they have packed. -/
def Working (s : Packing) : SenderPc → Prop
  | .packing p m => AtMessage s p m
  | .popping p m => AtMessage s p m
  | .flushing => AtFlush s
  | .sending _ => Ready (fun i => s.popped[i]?) s
  | _ => True

/-- The messages of the batch that is being packed or sent. -/
def current (s : Packing) : SenderPc → List MessageBytes
  | .packing _ _ => s.popped
  | .popping _ _ => s.popped
  | .flushing => s.popped
  | .sending _ => s.popped
  | _ => []

variable {s : Packing} {p m : ℕ}

/-- The loops start with the first packet. -/
theorem working_start {b : Batch} (hb : b.WF) :
    Working ⟨b, 0, 0, []⟩ (.packet b.capacity 0) := by
  have hpacked : Packed (fun i => ([] : List MessageBytes)[i]?) ⟨b, 0, 0, []⟩ := packed_start hb
  unfold SenderPc.packet
  split_ifs with hcap
  · exact ⟨hpacked, rfl, rfl, msgPerPacket_pos, hcap⟩
  · refine ⟨hpacked, Nat.zero_le _, le_of_eq (Nat.zero_mul _), msgPerPacket_pos, fun h => ?_⟩
    simp only at h
    rw [← h, Nat.zero_mul]
    rfl

/-- A `pop` that fails ends the loops. -/
theorem AtMessage.flush (h : AtMessage s p m) : AtFlush s := by
  have hplace := h.place
  have hm := h.m_lt
  have hp := h.p_lt
  refine ⟨h.packed, h.packets ▸ hp.le, ?_, ?_, fun hcap => ?_⟩
  · rw [h.packets]
    omega
  · rw [h.packets, Nat.succ_mul]
    omega
  · rw [h.packets] at hcap
    omega

/-- The message that has been popped is copied to its place. -/
theorem AtMessage.pack (h : AtMessage s p m) (msg : MessageBytes) :
    ∃ s', s.pack p m msg = .ok s' ∧ Packed (fun i => s'.popped[i]?) s' ∧
      s'.popped = s.popped ++ [msg] ∧ s'.packetsToSend = p ∧
        s'.batch.capacity = s.batch.capacity := by
  have hroom : s.popped.length < s.batch.capacity * msgPerPacket := by
    have hnext := Nat.mul_le_mul_right msgPerPacket h.p_lt
    have hplace := h.place
    have hm := h.m_lt
    rw [Nat.succ_mul] at hnext
    omega
  have hpacked : Packed (fun i => (s.popped ++ [msg])[i]?) s :=
    { h.packed with results := fun i hi => List.getElem?_append_left hi }
  obtain ⟨s', hs', h', hpopped, hpackets, hcap⟩ :=
    hpacked.pack List.getElem?_concat_length h.place hroom
  exact ⟨s', hs', hpopped ▸ h', hpopped, hpackets.trans h.packets, hcap⟩

/-- The loops go on with the packet, or with the next one. -/
theorem next_spec (h : Packed (fun i => s.popped[i]?) s) (hpackets : s.packetsToSend = p)
    (hplace : p * msgPerPacket + m = s.popped.length) (hm : m ≤ msgPerPacket)
    (hp : p < s.batch.capacity) :
    ∃ pc s', s.next p m = .ok (pc, s') ∧ ((∃ p m, pc = .packing p m) ∨ pc = .flushing) ∧
      Working s' pc ∧ s'.popped = s.popped ∧ s'.batch.WF := by
  unfold Packing.next
  split_ifs with hlt
  · exact ⟨_, s, rfl, Or.inl ⟨_, _, rfl⟩, ⟨h, hpackets, hplace, hlt, hp⟩, rfl, h.wf⟩
  · -- the packet is full
    obtain rfl : m = msgPerPacket := Nat.le_antisymm hm (Nat.not_lt.1 hlt)
    obtain ⟨batch, hbatch, hcap, h'⟩ := h.setIovLen hpackets hp
    refine ⟨_, _, bind_eq_ok.2 ⟨batch, hbatch, rfl⟩, ?_⟩
    unfold SenderPc.packet
    split_ifs with hmore
    · refine ⟨Or.inl ⟨_, _, rfl⟩, ⟨h', ?_, ?_, msgPerPacket_pos, hmore⟩, rfl, h'.wf⟩
      · simp only [hpackets]
      · rw [Nat.succ_mul]
        exact hplace
    · refine ⟨Or.inr rfl, ⟨h', ?_, ?_, ?_, fun hall => ?_⟩, rfl, h'.wf⟩
      · simp only [hpackets, hcap]
        exact hp
      · simp only [hpackets]
        rw [Nat.succ_mul, hplace]
      · simp only [hpackets]
        rw [Nat.succ_mul, Nat.succ_mul, hplace]
        exact Nat.lt_add_of_pos_right msgPerPacket_pos
      · simp only [hpackets] at hall ⊢
        rw [← hall, Nat.succ_mul, hplace]

/-- The last packet is given its length, and no packet is left out. -/
theorem AtFlush.flush (h : AtFlush s) :
    ∃ s', s.flush = .ok s' ∧ Ready (fun i => s'.popped[i]?) s' ∧ s'.popped = s.popped := by
  obtain ⟨s', hs', h', -⟩ := h.packed.flush h.le h.lt h.packets_le h.all
    (Or.inr (List.getElem?_eq_none le_rfl))
  have hpopped : s'.popped = s.popped := by
    unfold Packing.flush at hs'
    dsimp only at hs'
    split_ifs at hs'
    · obtain ⟨batch, -, hs'⟩ := bind_eq_ok.1 hs'
      cases hs'
      rfl
    · cases hs'
      rfl
    · cases hs'
      rfl
  exact ⟨s', hs', hpopped ▸ h', hpopped⟩

end Packing

theorem SenderPc.Idle.spec {pc : SenderPc} (h : pc.Idle) (s : Packing) :
    (∀ p m, pc ≠ .popping p m) ∧ s.current pc = [] ∧ s.Working pc := by
  cases pc <;> simp_all [SenderPc.Idle, Packing.current, Packing.Working]

/-! ## What is kept -/

namespace FeedThreads

/-- What `sendThread` has found out on the way out of its loop. -/
def Leaving (st : FeedThreads) : Prop :=
  match st.sender with
  | .comparing => st.done = true
  | .headLoaded head => st.done = true ∧ head = st.queue.head
  | .tailLoaded tail => st.done = true ∧ tail = st.queue.tail
  | .exited => st.done = true ∧ st.queue.popped = st.queue.accepted
  | _ => True

/-- The queue is sound, the threads are where their flags say, and no message has been cut. -/
structure Inv (st : FeedThreads) : Prop where
  sound : st.queue.Sound (SpscQueue.indexing queueBufferSize) queueBufferSize fun k => k % 2 ^ 64
  finished : st.done = true → st.reader = .finished
  pushing : st.queue.producer.result? = none ↔ ∃ i reads, st.reader = .pushing i reads
  popping : st.queue.consumer.result? = none ↔ ∃ p m, st.sender = .popping p m
  wf : st.packing.batch.WF
  working : st.packing.Working st.sender
  leaving : Leaving st
  cut : (st.batches.map messagesOf).flatten ++ bytesOf (st.packing.current st.sender) =
    bytesOf st.queue.popped

variable {st st' : FeedThreads}

theorem inv_init (array : ℕ → MessageBytes) (memory tcpMemory : ℕ → UInt8) :
    Inv (init array memory tcpMemory) where
  sound := QueueThreads.sound_init MarketFeedReader.counts array
  finished := by simp [init]
  pushing := by simp [init, QueueThreads.init, ProducerPc.result?]
  popping := by simp [init, QueueThreads.init, ConsumerPc.result?]
  wf := Batch.wf_init ..
  working := trivial
  leaving := trivial
  cut := rfl

/-- Indices that are equal at one moment say that everything has been popped : there are fewer
messages in the queue than an index can count. -/
theorem Inv.compare (h : Inv st) (hempty : st.queue.head = st.queue.tail) :
    st.queue.popped = st.queue.accepted := by
  rw [h.sound.head, h.sound.tail] at hempty
  have hle := h.sound.length_le
  have hlen := MarketFeedReader.counts.inj hle.1 hle.2 hempty
  have hacc := h.sound.accepted_eq
  rw [QueueThreads.waiting, List.drop_eq_nil_of_le hlen.ge, List.append_nil] at hacc
  exact hacc.symm

/-! ## Steps of `readThread` -/

/-- While `done` is not set `sendThread` has found out nothing, and no step of `readThread` changes
that. -/
theorem Leaving.of_running (h : Leaving st) (hdone : st.done = false)
    (hsender : st'.sender = st.sender) : Leaving st' := by
  unfold Leaving at h ⊢
  rw [hsender]
  cases hpc : st.sender <;> simp_all

/-- A step of `readThread` changes the queue, where it is, and at the end `done`. -/
theorem Inv.reader (h : Inv st) (hdone : st.done = false) {queue : QueueThreads MessageBytes}
    {done : Bool} {reader : ReaderPc}
    (hsound : queue.Sound (SpscQueue.indexing queueBufferSize) queueBufferSize fun k => k % 2 ^ 64)
    (hpopped : queue.popped = st.queue.popped) (hconsumer : queue.consumer = st.queue.consumer)
    (hfinished : done = true → reader = .finished)
    (hpushing : queue.producer.result? = none ↔ ∃ i reads, reader = .pushing i reads) :
    Inv { st with queue := queue, done := done, reader := reader } where
  sound := hsound
  finished := hfinished
  pushing := hpushing
  popping := by
    rw [hconsumer]
    exact h.popping
  wf := h.wf
  working := h.working
  leaving := h.leaving.of_running hdone rfl
  cut := by
    rw [hpopped]
    exact h.cut

/-- `readThread` moves on without the queue. -/
theorem Inv.readerMoves (h : Inv st) (hdone : st.done = false) {done : Bool} {reader : ReaderPc}
    (hpc : ∀ i reads, st.reader ≠ .pushing i reads)
    (hpc' : ∀ i reads, reader ≠ .pushing i reads)
    (hfinished : done = true → reader = .finished) :
    Inv { st with done := done, reader := reader } := by
  refine h.reader hdone h.sound rfl rfl hfinished (h.pushing.trans ?_)
  simp [hpc, hpc']

theorem Inv.readThread (h : Inv st) {next : Option MessageBytes}
    (hstep : st.readThread next = some st') : Inv st' := by
  have hdone : st.done = false := by
    rw [Bool.eq_false_iff]
    intro hdone
    rw [FeedThreads.readThread, h.finished hdone] at hstep
    cases hstep
  have hnot : st.done = true → ∀ reader, reader = ReaderPc.finished := fun hd =>
    absurd hd (by simp [hdone])
  unfold FeedThreads.readThread at hstep
  split at hstep
  next hpc =>
    cases hstep
    refine h.readerMoves hdone (by simp [hpc]) (fun i reads => ?_) fun hd => hnot hd _
    split_ifs <;> simp
  next i reads hpc =>
    split at hstep
    next hi =>
      split at hstep
      next msg =>
        split at hstep
        next =>
          obtain ⟨queue, hq, rfl⟩ := Option.map_eq_some_iff.1 hstep
          obtain rfl := QueueThreads.callPush_eq hq
          exact h.reader hdone (h.sound.callPush hq) rfl rfl (fun hd => hnot hd _)
            (iff_of_true rfl ⟨_, _, rfl⟩)
        next =>
          cases hstep
          exact h.readerMoves hdone (by simp [hpc]) (by simp) fun hd => hnot hd _
      next =>
        cases hstep
        exact h.readerMoves hdone (by simp [hpc]) (by simp) fun hd => hnot hd _
    next =>
      cases hstep
      exact h.readerMoves hdone (by simp [hpc]) (by simp) fun hd => hnot hd _
  next i reads hpc =>
    obtain ⟨queue, hq, rfl⟩ := Option.map_eq_some_iff.1 hstep
    obtain ⟨hpopped, -, hconsumer⟩ := QueueThreads.produce_same hq
    refine h.reader hdone (h.sound.produce MarketFeedReader.counts hq) hpopped hconsumer
      (fun hd => hnot hd _) ?_
    cases hresult : queue.producer.result? <;> simp
  next hpc =>
    cases hstep
    exact h.readerMoves hdone (by simp [hpc]) (by simp) fun _ => rfl
  next => cases hstep

/-! ## Steps of `sendThread` -/

/-- `sendThread` moves on without the queue. -/
theorem Inv.senderMoves (h : Inv st) (hpc : ∀ p m, st.sender ≠ .popping p m) {sender : SenderPc}
    {packing : Packing} {batches : List (List (List UInt8))}
    (hpc' : ∀ p m, sender ≠ .popping p m) (hwf : packing.batch.WF)
    (hworking : packing.Working sender)
    (hleaving : Leaving { st with sender := sender, packing := packing, batches := batches })
    (hcut : (batches.map messagesOf).flatten ++ bytesOf (packing.current sender) =
      (st.batches.map messagesOf).flatten ++ bytesOf (st.packing.current st.sender)) :
    Inv { st with sender := sender, packing := packing, batches := batches } where
  sound := h.sound
  finished := h.finished
  pushing := h.pushing
  popping := by
    rw [h.popping]
    simp [hpc, hpc']
  wf := hwf
  working := hworking
  leaving := hleaving
  cut := hcut.trans h.cut

/-- `sendThread` goes from a place without a batch to another. -/
theorem Inv.between (h : Inv st) (hidle : st.sender.Idle) {sender : SenderPc} (hidle' : sender.Idle)
    (hleaving : Leaving { st with sender := sender }) : Inv { st with sender := sender } := by
  obtain ⟨hpc, hcurrent, -⟩ := hidle.spec st.packing
  obtain ⟨hpc', hcurrent', hworking⟩ := hidle'.spec st.packing
  exact h.senderMoves hpc hpc' h.wf hworking hleaving (by rw [hcurrent, hcurrent'])

theorem Inv.startPass (h : Inv st) (hidle : st.sender.Idle) : Inv st.startPass := by
  obtain ⟨hpc, hcurrent, -⟩ := hidle.spec st.packing
  have hworking := Packing.working_start h.wf
  unfold FeedThreads.startPass
  unfold SenderPc.packet at hworking ⊢
  split_ifs at hworking ⊢
  · exact h.senderMoves hpc (by simp) h.wf hworking trivial (by rw [hcurrent]; rfl)
  · exact h.senderMoves hpc (by simp) h.wf hworking trivial (by rw [hcurrent]; rfl)

/-- The indices are compared : `sendThread` leaves its loop, or goes through it once more. -/
theorem Inv.test (h : Inv st) (hidle : st.sender.Idle) (hdone : st.done = true) {empty : Prop}
    [Decidable empty] (hempty : empty → st.queue.head = st.queue.tail) :
    Inv (if empty then { st with sender := .exited } else st.startPass) := by
  split_ifs with he
  · exact h.between hidle trivial ⟨hdone, h.compare (hempty he)⟩
  · exact h.startPass hidle

theorem Inv.callPop (h : Inv st) {p m : ℕ} (hpc : st.sender = .packing p m)
    {queue : QueueThreads MessageBytes} (hq : st.queue.callPop = some queue) :
    Inv { st with queue := queue, sender := .popping p m } := by
  have hworking := h.working
  have hcut := h.cut
  have hsound := h.sound.callPop hq
  rw [hpc] at hworking hcut
  obtain rfl := QueueThreads.callPop_eq hq
  exact ⟨hsound, h.finished, h.pushing, iff_of_true rfl ⟨p, m, rfl⟩, h.wf, hworking, trivial,
    hcut⟩

/-- A step of `pop`, and what is done with the message if it was the last. -/
theorem Inv.consume (h : Inv st) {p m : ℕ} (hpc : st.sender = .popping p m) (tailFirst : Bool) :
    ∃ st', st.sendThread tailFirst = some st' ∧ Inv st' := by
  obtain ⟨queue, hq⟩ := QueueThreads.exists_consume (SpscQueue.indexing queueBufferSize)
    (h.popping.2 ⟨p, m, hpc⟩)
  have hworking := h.working
  have hcut := h.cut
  have hsound := h.sound.consume MarketFeedReader.counts hq
  have hpushing := h.pushing
  rw [← (QueueThreads.consume_same hq).2] at hpushing
  rw [hpc] at hworking hcut
  simp only [FeedThreads.sendThread, hpc, hq, Option.bind_eq_bind, Option.bind_some]
  rcases h.sound.consume_cases MarketFeedReader.counts hq with
    ⟨hresult, -, hpopped⟩ | ⟨hresult, -, -, hpopped⟩ | ⟨msg, hresult, -, hpopped⟩ <;>
      rw [hresult]
  · rw [← hpopped] at hcut
    exact ⟨_, rfl, hsound, h.finished, hpushing, iff_of_true hresult ⟨p, m, rfl⟩, h.wf,
      hworking, trivial, hcut⟩
  · rw [← hpopped] at hcut
    exact ⟨_, rfl, hsound, h.finished,
      hpushing, by simp [hresult], h.wf, hworking.flush, trivial, hcut⟩
  · obtain ⟨s, hs, hpacked, hs', hpackets, hcap⟩ := hworking.pack msg
    have hplace : p * msgPerPacket + (m + 1) = s.popped.length := by
      rw [hs', List.length_append, List.length_singleton, ← hworking.place, Nat.add_assoc]
    obtain ⟨pc, s₁, hnext, hin, hworking', hpopped', hwf⟩ :=
      Packing.next_spec hpacked hpackets hplace hworking.m_lt (by rw [hcap]; exact hworking.p_lt)
    simp only [hs, hnext, Except.toOption, Option.bind_some]
    have hcut' : (st.batches.map messagesOf).flatten ++ bytesOf s₁.popped =
        bytesOf queue.popped := by
      rw [hpopped', hs', hpopped, bytesOf_append, bytesOf_append, ← List.append_assoc]
      exact congrArg (· ++ bytesOf [msg]) hcut
    rcases hin with ⟨p, m, rfl⟩ | rfl
    · exact ⟨_, rfl, hsound, h.finished,
        hpushing, by simp [hresult], hwf, hworking', trivial, hcut'⟩
    · exact ⟨_, rfl, hsound, h.finished,
        hpushing, by simp [hresult], hwf, hworking', trivial, hcut'⟩

/-- The batch is closed. If there is nothing in it, `sendThread` goes back to the test. -/
theorem Inv.flush (h : Inv st) (hpc : st.sender = .flushing) (tailFirst : Bool) :
    ∃ st', st.sendThread tailFirst = some st' ∧ Inv st' := by
  have hworking := h.working
  rw [hpc] at hworking
  obtain ⟨s, hs, hready, hpopped⟩ := hworking.flush
  simp only [FeedThreads.sendThread, hpc, hs, Except.toOption, Option.bind_eq_bind,
    Option.bind_some]
  refine ⟨_, rfl, ?_⟩
  have hpc' : ∀ p m, st.sender ≠ .popping p m := by simp [hpc]
  split_ifs with hnone
  · refine h.senderMoves hpc' (by simp) hready.wf trivial trivial ?_
    have hnil : st.packing.popped = [] := by
      have hcovers := hready.covers
      rw [hnone, Nat.zero_mul, Nat.le_zero, List.length_eq_zero_iff] at hcovers
      rw [← hpopped, hcovers]
    rw [hpc]
    simp only [Packing.current, hnil]
  · refine h.senderMoves hpc' (by simp) hready.wf hready trivial ?_
    rw [hpc]
    simp only [Packing.current, hpopped]

/-- Until there is something to send, `sendThread` can always go on. -/
theorem Inv.sendThread (h : Inv st) (tailFirst : Bool) (hsending : ∀ n, st.sender ≠ .sending n)
    (hstreaming : ∀ n, st.sender ≠ .streaming n) (hexited : st.sender ≠ .exited) :
    ∃ st', st.sendThread tailFirst = some st' ∧ Inv st' := by
  have hleaving := h.leaving
  unfold Leaving at hleaving
  cases hpc : st.sender with
  | testing =>
    simp only [FeedThreads.sendThread, hpc]
    refine ⟨_, rfl, ?_⟩
    split_ifs with hdone
    · exact h.startPass (by rw [hpc]; trivial)
    · exact h.between (by rw [hpc]; trivial) trivial (by simpa [Leaving] using hdone)
  | comparing =>
    simp only [hpc] at hleaving
    simp only [FeedThreads.sendThread, hpc]
    refine ⟨_, rfl, ?_⟩
    split_ifs
    · exact h.between (by rw [hpc]; trivial) trivial ⟨hleaving, rfl⟩
    · exact h.between (by rw [hpc]; trivial) trivial ⟨hleaving, rfl⟩
  | headLoaded head =>
    simp only [hpc] at hleaving
    simp only [FeedThreads.sendThread, hpc]
    exact ⟨_, rfl, h.test (by rw [hpc]; trivial) hleaving.1 fun hempty => hleaving.2.symm.trans
      hempty⟩
  | tailLoaded tail =>
    simp only [hpc] at hleaving
    simp only [FeedThreads.sendThread, hpc]
    exact ⟨_, rfl, h.test (by rw [hpc]; trivial) hleaving.1 fun hempty => hempty.trans
      hleaving.2⟩
  | packing p m =>
    have hreturned : st.queue.consumer.result? ≠ none := by
      rw [Ne, h.popping]
      simp [hpc]
    obtain ⟨queue, hq⟩ := QueueThreads.exists_callPop hreturned
    exact ⟨_, by simp only [FeedThreads.sendThread, hpc, hq, Option.map_some], h.callPop hpc hq⟩
  | popping p m => exact h.consume hpc tailFirst
  | flushing => exact h.flush hpc tailFirst
  | sending sent => exact absurd hpc (hsending sent)
  | streaming sentTotal => exact absurd hpc (hstreaming sentTotal)
  | exited => exact absurd hpc hexited

theorem Inv.took (h : Inv st) {n : ℕ} (hstep : st.took n = some st') : Inv st' := by
  unfold FeedThreads.took at hstep
  split at hstep
  next sent hpc =>
    have hready := h.working
    rw [hpc] at hready
    split_ifs at hstep
    · cases hstep
      exact h.senderMoves (by simp [hpc]) (by simp) h.wf hready trivial (by rw [hpc]; rfl)
    · -- the batch has been sent
      cases hstep
      refine h.senderMoves (by simp [hpc]) (by simp) h.wf trivial trivial ?_
      have hmessages : messagesOf (st.packing.batch.datagrams st.packing.packetsToSend) =
          bytesOf st.packing.popped := hready.received
      rw [hpc, List.map_append, List.flatten_append, List.map_singleton, List.flatten_singleton,
        hmessages]
      exact List.append_nil _
  next sentTotal hpc =>
    split_ifs at hstep
    · cases hstep
      exact h.between (by rw [hpc]; trivial) trivial trivial
    · cases hstep
      exact h.between (by rw [hpc]; trivial) trivial trivial
  next => cases hstep

/-- Every step but a send that fails keeps what there is. -/
theorem Inv.step (h : Inv st) {a : Action} (ha : a ≠ .failed) (hstep : st.step a = some st') :
    Inv st' := by
  cases a with
  | clearFlag =>
    cases hstep
    exact { h with }
  | readThread next => exact h.readThread hstep
  | sendThread tailFirst =>
    have hstep' : st.sendThread tailFirst = some st' := hstep
    obtain ⟨st₁, hst₁, h₁⟩ := h.sendThread tailFirst (fun n hpc => by
      simp [FeedThreads.sendThread, hpc] at hstep') (fun n hpc => by
      simp [FeedThreads.sendThread, hpc] at hstep') (fun hpc => by
      simp [FeedThreads.sendThread, hpc] at hstep')
    exact Option.some.inj (hst₁.symm.trans hstep') ▸ h₁
  | took n => exact h.took hstep
  | interrupted =>
    simp only [FeedThreads.step] at hstep
    split at hstep
    · cases hstep
      exact h
    · cases hstep
  | wouldBlock =>
    simp only [FeedThreads.step] at hstep
    split at hstep
    next sentTotal hpc =>
      cases hstep
      exact h.between (by rw [hpc]; trivial) trivial trivial
    next => cases hstep
  | failed => exact absurd rfl ha

/-! ## Runs -/

theorem inv_run (array : ℕ → MessageBytes) (memory tcpMemory : ℕ → UInt8)
    {actions : List Action}
    (hsends : Action.failed ∉ actions) (hrun : (init array memory tcpMemory).run actions =
      some st) :
    Inv st := by
  refine Runs.Steps.invariant (I := Inv) (P := fun _ a => a ≠ Action.failed)
    (fun h ha hstep => h.step ha hstep) (inv_init array memory tcpMemory)
    (.of_forall_mem fun a ha _ hfailed => ?_) (Runs.steps_iff_some.2 hrun)
  rw [hfailed] at ha
  exact hsends ha

/-- Whatever the other thread does, `sendThread` goes on until it has something to send or has left
its loop : none of its copies goes out of a buffer. -/
theorem sendThread_moves (array : ℕ → MessageBytes) (memory tcpMemory : ℕ → UInt8)
    {actions : List Action} (hsends : Action.failed ∉ actions)
    (hrun : (init array memory tcpMemory).run actions = some st) (tailFirst : Bool) :
    (∃ n, st.sender = .sending n) ∨ (∃ n, st.sender = .streaming n) ∨
    st.sender = .exited ∨ ∃ st', st.sendThread tailFirst = some st' := by
  have h := inv_run array memory tcpMemory hsends hrun
  by_contra hnot
  push Not at hnot
  obtain ⟨hsending, hstreaming, hexited, hstuck⟩ := hnot
  obtain ⟨st', hst', -⟩ := h.sendThread tailFirst hsending hstreaming hexited
  exact hstuck st' hst'

/-- In whatever order the threads take their steps, if no send fails, then when `sendThread` has
left its loop every message that has been pushed has been popped, and is in one of the batches that
have been sent, once. -/
theorem nothing_stranded (array : ℕ → MessageBytes) (memory tcpMemory : ℕ → UInt8)
    {actions : List Action} (hsends : Action.failed ∉ actions)
    (hrun : (init array memory tcpMemory).run actions = some st) (hexited : st.sender = .exited) :
    Delivered st := by
  have h := inv_run array memory tcpMemory hsends hrun
  have hleaving := h.leaving
  have hcut := h.cut
  simp only [Leaving, hexited] at hleaving
  rw [hexited, hleaving.2] at hcut
  exact ⟨hleaving.2, (List.append_nil _).symm.trans hcut⟩

/-- Two messages are pushed, the second after `flag` has been cleared. `sendThread` sends them,
finds `done` not set, goes through the loops once more while it is set, and leaves. -/
def twoMessages (m₀ m₁ : MessageBytes) : List Action :=
  let reads n := List.replicate n (Action.readThread none)
  let sends n := List.replicate n (Action.sendThread true)
  reads 1 ++ sends 1 ++ [.readThread (some m₀)] ++ reads 2 ++ sends 1 ++ reads 2 ++ sends 4 ++
    [.readThread (some m₁), .clearFlag] ++ reads 4 ++ sends 9 ++ reads 4 ++
    [.interrupted, .took 1, .took 100, .took 28] ++ sends 1 ++ reads 1 ++ sends 7

theorem nothing_stranded_twoMessages : ∃ st : FeedThreads,
    (init (fun _ => ⟨List.replicate 64 0, rfl⟩) (fun _ => 0) fun _ => 0).run
      (twoMessages ⟨List.replicate 64 5, rfl⟩ ⟨List.replicate 64 6, rfl⟩) = some st ∧
    st.sender = .exited ∧ st.queue.accepted.length = 2 ∧ st.batches.length = 1 ∧
      Delivered st := by
  have hview : ((init (fun _ => ⟨List.replicate 64 0, rfl⟩) (fun _ => 0) fun _ => 0).run
      (twoMessages ⟨List.replicate 64 5, rfl⟩ ⟨List.replicate 64 6, rfl⟩)).map (fun st =>
        (st.sender, st.queue.accepted.length, st.batches.length)) = some (.exited, 2, 1) := by
    decide +kernel
  obtain ⟨st, hrun, hst⟩ := Option.map_eq_some_iff.1 hview
  obtain ⟨hexited, hst⟩ := Prod.mk.inj hst
  obtain ⟨hacc, hbatches⟩ := Prod.mk.inj hst
  exact ⟨st, hrun, hexited, hacc, hbatches,
    nothing_stranded _ _ _ (by decide +kernel) hrun hexited⟩

end FeedThreads

end TradeX
