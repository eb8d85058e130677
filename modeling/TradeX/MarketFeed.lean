import TradeX.QueueThreads
import TradeX.Message

/-!
# The market data feed

`readThread` and `sendThread` of `MarketFeedReader`, up to the queue between them : the first
reads trades from the rings, numbers them and pushes a message for each, and the second pops
the messages. The number is taken before the message is pushed, and the result of `push` is
not looked at, so a message that finds the queue full is gone, and its number with it
(`trade_dropped`). `feed_complete_iff` says that this is the only way to lose one.
-/

namespace TradeX

/-- `queue_buffer_size`. -/
def queueBufferSize : ℕ := 2 ^ 20

namespace MarketFeedReader

/-- `formatMarketData`, but for the increment of `seq_num`. -/
def formatMarketData (seqNum : ℕ) (trade : Trade) : MarketDataMessage where
  tradeId := trade.tradeId
  timestampNs := trade.timestampNs
  price := trade.price
  symbolId := trade.symbolId
  quantity := trade.quantity
  seqNum := seqNum

/-- The queue with its threads, the next number, and the trades that `readThread` has read. -/
structure Feed where
  queue : QueueThreads MarketDataMessage
  seqNum : ℕ
  read : List Trade

/-- The reader at its start, with an array that holds anything. -/
def Feed.init (array : ℕ → MarketDataMessage) : Feed :=
  ⟨.init array, 0, []⟩

/-- `readThread` reads a trade and calls `push`, or goes on with it; `sendThread` calls `pop`,
or goes on with it. -/
inductive Action
  | read (trade : Trade)
  | produce
  | callPop
  | consume

namespace Feed

/-- A step of one of the two threads, if it can be taken. -/
def step (st : Feed) : Action → Option Feed
  | .read trade =>
    (st.queue.callPush (formatMarketData st.seqNum trade)).map fun queue =>
      ⟨queue, add64 st.seqNum 1, st.read ++ [trade]⟩
  | .produce =>
    (st.queue.produce (SpscQueue.indexing queueBufferSize)).map fun queue =>
      { st with queue := queue }
  | .callPop => st.queue.callPop.map fun queue => { st with queue := queue }
  | .consume =>
    (st.queue.consume (SpscQueue.indexing queueBufferSize)).map fun queue =>
      { st with queue := queue }

/-- The threads take steps in any order. -/
def run (st : Feed) (actions : List Action) : Option Feed :=
  actions.foldlM step st

end Feed

/-- The messages for trades that are numbered from `seqNum` on. -/
def messagesFrom (seqNum : ℕ) : List Trade → List MarketDataMessage
  | [] => []
  | trade :: trades => formatMarketData seqNum trade :: messagesFrom (add64 seqNum 1) trades

/-- The messages that have been popped are numbered in order, one for each trade, and every
trade that has been read has its message accepted by the queue or on its way to it. -/
structure Complete (st : Feed) : Prop where
  numbered : ∀ i m, st.queue.popped[i]? = some m →
    ∃ trade, st.read[i]? = some trade ∧ m = formatMarketData (i % 2 ^ 64) trade
  kept : messagesFrom 0 st.read = st.queue.accepted ++ st.queue.producer.item.toList

/-- `push` finds the queue full. -/
def Full (st : Feed) : Prop :=
  match st.queue.producer with
  | .loaded _ index =>
    let ix := SpscQueue.indexing queueBufferSize
    ix.slot (ix.next (st.queue.tailSeen ix index)) = ix.slot (st.queue.headSeen ix index)
  | _ => False

/-- `push` does not find the queue full. -/
def Room (st : Feed) (a : Action) : Prop :=
  a = .produce → ¬ Full st

/-! ## Numbers -/

theorem messagesFrom_append : ∀ {seqNum : ℕ} (l l' : List Trade), seqNum < 2 ^ 64 →
    messagesFrom seqNum (l ++ l') =
      messagesFrom seqNum l ++ messagesFrom ((seqNum + l.length) % 2 ^ 64) l'
  | seqNum, [], l', h => by
    rw [List.nil_append, List.length_nil, Nat.add_zero, Nat.mod_eq_of_lt h]
    rfl
  | seqNum, t :: l, l', _ => by
    have hnext : (add64 seqNum 1 + l.length) % 2 ^ 64 = (seqNum + (t :: l).length) % 2 ^ 64 := by
      rw [add64, Nat.mod_add_mod, List.length_cons, Nat.add_assoc, Nat.add_comm 1]
    rw [List.cons_append, messagesFrom, messagesFrom_append l l' (add64_lt _ _), hnext]
    rfl

theorem getElem?_messagesFrom : ∀ {seqNum : ℕ} (l : List Trade) (i : ℕ), seqNum < 2 ^ 64 →
    (messagesFrom seqNum l)[i]? = l[i]?.map (formatMarketData ((seqNum + i) % 2 ^ 64))
  | _, [], i, _ => by simp [messagesFrom]
  | seqNum, t :: l, 0, h => by
    rw [Nat.add_zero, Nat.mod_eq_of_lt h]
    rfl
  | seqNum, t :: l, i + 1, _ => by
    have hnext : (add64 seqNum 1 + i) % 2 ^ 64 = (seqNum + (i + 1)) % 2 ^ 64 := by
      rw [add64, Nat.mod_add_mod, Nat.add_assoc, Nat.add_comm 1]
    rw [messagesFrom, List.getElem?_cons_succ, List.getElem?_cons_succ,
      getElem?_messagesFrom l i (add64_lt _ _), hnext]

theorem length_messagesFrom : ∀ (seqNum : ℕ) (l : List Trade),
    (messagesFrom seqNum l).length = l.length
  | _, [] => rfl
  | _, t :: l => by rw [messagesFrom, List.length_cons, List.length_cons, length_messagesFrom _ l]

/-! ## What is kept -/

/-- What the queue and the next number are in every run. -/
structure Inv (st : Feed) : Prop where
  sound : st.queue.Sound (SpscQueue.indexing queueBufferSize) queueBufferSize fun k => k % 2 ^ 64
  seqNum : st.seqNum = st.read.length % 2 ^ 64

variable {st st' : Feed} {a : Action} {k : ℕ}

theorem counts : QueueThreads.Counts (SpscQueue.indexing queueBufferSize) queueBufferSize
    fun k => k % 2 ^ 64 :=
  SpscQueue.counts (pow_dvd_pow 2 (by decide))

theorem inv_init (array : ℕ → MarketDataMessage) : Inv (.init array) :=
  ⟨QueueThreads.sound_init counts array, rfl⟩

/-- What the other steps of the feed do to the queue. -/
inductive Moves : Action → QueueThreads MarketDataMessage → QueueThreads MarketDataMessage →
    Prop
  | produce {q q'} (h : q.produce (SpscQueue.indexing queueBufferSize) = some q') :
    Moves .produce q q'
  | callPop {q q'} (h : q.callPop = some q') : Moves .callPop q q'
  | consume {q q'} (h : q.consume (SpscQueue.indexing queueBufferSize) = some q') :
    Moves .consume q q'

/-- A step reads a trade, or moves the queue. -/
theorem step_cases (h : st.step a = some st') :
    (∃ trade queue, a = .read trade ∧
      st.queue.callPush (formatMarketData st.seqNum trade) = some queue ∧
      st' = ⟨queue, add64 st.seqNum 1, st.read ++ [trade]⟩) ∨
    ∃ queue, Moves a st.queue queue ∧ st' = { st with queue := queue } := by
  cases a <;> simp only [Feed.step] at h <;> obtain ⟨queue, hq, rfl⟩ :=
    Option.map_eq_some_iff.1 h
  · exact Or.inl ⟨_, queue, rfl, hq, rfl⟩
  · exact Or.inr ⟨queue, .produce hq, rfl⟩
  · exact Or.inr ⟨queue, .callPop hq, rfl⟩
  · exact Or.inr ⟨queue, .consume hq, rfl⟩

theorem Inv.step (h : Inv st) (hstep : st.step a = some st') : Inv st' := by
  rcases step_cases hstep with ⟨trade, queue, rfl, hq, rfl⟩ | ⟨queue, hq, rfl⟩
  · refine ⟨h.sound.callPush hq, ?_⟩
    rw [add64, h.seqNum, Nat.mod_add_mod, List.length_append, List.length_singleton]
  · refine ⟨?_, h.seqNum⟩
    cases hq with
    | produce hq => exact h.sound.produce counts hq
    | callPop hq => exact h.sound.callPop hq
    | consume hq => exact h.sound.consume counts hq

/-- The numbers are right if no message has been dropped. -/
theorem Inv.complete (h : Inv st)
    (hkept : messagesFrom 0 st.read = st.queue.accepted ++ st.queue.producer.item.toList) :
    Complete st := by
  refine ⟨fun i m hm => ?_, hkept⟩
  obtain ⟨rest, hrest, -⟩ := h.sound.held
  have hi : i < st.queue.popped.length := (List.getElem?_eq_some_iff.1 hm).1
  have hmsg : (messagesFrom 0 st.read)[i]? = some m := by
    rw [hkept, hrest, List.append_assoc, List.getElem?_append_left hi, hm]
  rw [getElem?_messagesFrom _ i (by decide), Nat.zero_add, Option.map_eq_some_iff] at hmsg
  obtain ⟨trade, htrade, rfl⟩ := hmsg
  exact ⟨trade, htrade, rfl⟩

/-- A step of `push` keeps its message, unless it finds the queue full. -/
theorem kept_produce {queue : QueueThreads MarketDataMessage}
    (hq : st.queue.produce (SpscQueue.indexing queueBufferSize) = some queue) :
    (Full st ∧ queue.accepted = st.queue.accepted ∧ queue.producer.item.toList = [] ∧
      (st.queue.producer.item.toList).length = 1) ∨
    (¬ Full st ∧ queue.accepted ++ queue.producer.item.toList =
      st.queue.accepted ++ st.queue.producer.item.toList) := by
  unfold QueueThreads.produce at hq
  unfold Full
  split at hq
  next => cases hq
  next item hpc =>
    cases hq
    simp [hpc, ProducerPc.item]
  next item index hpc =>
    simp only [hpc]
    split_ifs at hq with hfull
    · cases hq
      exact Or.inl ⟨hfull, rfl, rfl, rfl⟩
    · cases hq
      exact Or.inr ⟨hfull, rfl⟩
  next item tail hpc =>
    cases hq
    simp [hpc, ProducerPc.item]
  next item tail hpc =>
    cases hq
    simp [hpc, ProducerPc.item]

theorem Inv.complete_iff (h : Inv st) (hstep : st.step a = some st') (hst : Complete st) :
    Complete st' ↔ Room st a := by
  have h' := h.step hstep
  rcases step_cases hstep with ⟨trade, queue, rfl, hq, rfl⟩ | ⟨queue, hq, rfl⟩
  · -- the message of the trade is on its way
    refine iff_of_true (h'.complete ?_) nofun
    have hkept := hst.kept
    unfold QueueThreads.callPush at hq
    split at hq
    next result hpc =>
      cases hq
      rw [hpc, ProducerPc.item, Option.toList_none, List.append_nil] at hkept
      simp only [ProducerPc.item, Option.toList_some]
      rw [messagesFrom_append _ _ (by decide), hkept, Nat.zero_add, ← h.seqNum]
      rfl
    next => cases hq
  · cases hq with
    | produce hq =>
      rcases kept_produce hq with ⟨hfull, hacc, hnone, hone⟩ | ⟨hroom, hkept⟩
      · -- the number of the message is gone
        refine iff_of_false (fun hc => ?_) fun hroom => hroom rfl hfull
        have hlen := congrArg List.length hst.kept
        have hlen' := congrArg List.length hc.kept
        simp only [hacc, hnone, List.append_nil] at hlen'
        rw [List.length_append, hone] at hlen
        omega
      · refine iff_of_true (h'.complete ?_) fun _ => hroom
        rw [hkept]
        exact hst.kept
    | callPop hq =>
      refine iff_of_true (h'.complete ?_) nofun
      obtain ⟨hacc, hpc⟩ := QueueThreads.callPop_same hq
      rw [hacc, hpc]
      exact hst.kept
    | consume hq =>
      refine iff_of_true (h'.complete ?_) nofun
      obtain ⟨hacc, hpc⟩ := QueueThreads.consume_same hq
      rw [hacc, hpc]
      exact hst.kept

/-- In every state of a run the feed is complete iff `push` never finds the queue full. -/
theorem feed_complete_iff (array : ℕ → MarketDataMessage) (actions : List Action) :
    (∀ pre post st, actions = pre ++ post → (Feed.init array).run pre = some st →
      Complete st) ↔
      Runs.Always (fun st a st' => Feed.step st a = some st') Room (.init array) actions := by
  have hzero : Complete (.init array) := (inv_init array).complete rfl
  have hmove : ∀ {st : Feed} {a : Action}, Room st a ∨ ∃ st', st.step a = some st' := by
    intro st a
    by_cases hfull : a = .produce ∧ Full st
    · obtain ⟨rfl, hfull⟩ := hfull
      unfold Full at hfull
      split at hfull
      next item index hpc =>
        refine Or.inr ?_
        simp only [Feed.step, QueueThreads.produce, hpc]
        split_ifs <;> exact ⟨_, rfl⟩
      next => exact absurd hfull id
    · exact Or.inl fun ha hf => hfull ⟨ha, hf⟩
  simp only [Feed.run, ← Runs.steps_iff_some]
  exact Runs.always_iff (R := fun st a st' => Feed.step st a = some st') (I := Inv)
    (L := fun _ _ => True) (fun h _ hst' => h.step hst')
    (fun h _ hst' hst => h.complete_iff hst' hst) (fun _ _ => hmove) (inv_init array) hzero
    (.of_forall_mem fun _ _ _ => trivial)

/-! ## A sender that is stalled -/

/-- A trade is read and its message pushed, while the sender does nothing. -/
def wholePush (trade : Trade) : List Action :=
  [.read trade, .produce, .produce, .produce, .produce]

/-- Nothing has been popped, and `readThread` is not in `push`. -/
structure Stalled (st : Feed) (k : ℕ) : Prop where
  inv : Inv st
  producer : ∃ result, st.queue.producer = .outside result
  popped : st.queue.popped = []
  accepted : st.queue.accepted.length = k

theorem Inv.run (h : Inv st) {actions : List Action} (hrun : st.run actions = some st') : Inv st' :=
  Runs.Steps.invariant (P := fun _ _ => True) (fun h _ hstep => h.step hstep) h
    (.of_forall_mem fun _ _ _ => trivial) (Runs.steps_iff_some.2 hrun)

/-- The queue is full when it holds one message less than it has slots. -/
theorem Stalled.full_iff (h : Stalled st k) :
    add64 st.queue.tail 1 % queueBufferSize = st.queue.head % queueBufferSize ↔
      k + 1 = queueBufferSize := by
  have hlt := h.inv.sound.length_le.2
  have hdvd : queueBufferSize ∣ 2 ^ 64 := pow_dvd_pow 2 (by decide)
  rw [h.popped, h.accepted, List.length_nil, Nat.zero_add] at hlt
  rw [h.inv.sound.tail, h.inv.sound.head, h.popped, h.accepted, add64, Nat.mod_add_mod,
    Nat.mod_mod_of_dvd _ hdvd, List.length_nil, Nat.zero_mod, Nat.zero_mod]
  constructor
  · intro hmod
    have hle := Nat.le_of_dvd (Nat.succ_pos k) (Nat.dvd_of_mod_eq_zero hmod)
    omega
  · intro heq
    rw [heq, Nat.mod_self]

theorem Stalled.push (h : Stalled st k) (hroom : k + 1 < queueBufferSize) (trade : Trade) :
    ∃ st', st.run (wholePush trade) = some st' ∧ Stalled st' (k + 1) ∧
      st'.read = st.read ++ [trade] := by
  have hfull := mt h.full_iff.1 hroom.ne
  have hrun : ∃ st', st.run (wholePush trade) = some st' ∧
      st'.queue.producer = .outside true ∧
      st'.queue.popped = st.queue.popped ∧
        st'.queue.accepted.length = st.queue.accepted.length + 1 ∧
      st'.read = st.read ++ [trade] := by
    obtain ⟨⟨array, head, tail, producer, consumer, accepted, popped⟩, seqNum, read⟩ := st
    obtain ⟨result, hpc⟩ := h.producer
    obtain rfl : producer = .outside result := hpc
    simp [Feed.run, wholePush, Feed.step, QueueThreads.callPush, QueueThreads.produce,
      QueueThreads.tailSeen, QueueThreads.headSeen, SpscQueue.indexing, hfull]
  obtain ⟨st', hst', hpc, hpopped, hacc, hread⟩ := hrun
  exact ⟨st', hst', ⟨h.inv.run hst', ⟨true, hpc⟩, hpopped.trans h.popped, hacc.trans (by
    rw [h.accepted])⟩, hread⟩

/-- The message of a trade that finds the queue full is dropped. -/
theorem Stalled.drop (h : Stalled st k) (hfull : k + 1 = queueBufferSize) (trade : Trade) :
    ∃ st', st.run [.read trade, .produce, .produce] = some st' ∧ Stalled st' k ∧
      st'.read = st.read ++ [trade] := by
  have hfull := h.full_iff.2 hfull
  have hrun : ∃ st', st.run [.read trade, .produce, .produce] = some st' ∧
      st'.queue.producer = .outside false ∧ st'.queue.popped = st.queue.popped ∧
      st'.queue.accepted = st.queue.accepted ∧ st'.read = st.read ++ [trade] := by
    obtain ⟨⟨array, head, tail, producer, consumer, accepted, popped⟩, seqNum, read⟩ := st
    obtain ⟨result, hpc⟩ := h.producer
    obtain rfl : producer = .outside result := hpc
    simp [Feed.run, Feed.step, QueueThreads.callPush, QueueThreads.produce, QueueThreads.tailSeen,
      QueueThreads.headSeen, SpscQueue.indexing, hfull]
  obtain ⟨st', hst', hpc, hpopped, hacc, hread⟩ := hrun
  exact ⟨st', hst', ⟨h.inv.run hst', ⟨false, hpc⟩, hpopped.trans h.popped, by
    rw [hacc, h.accepted]⟩, hread⟩

theorem Stalled.pushAll : ∀ (l : List Trade) {st : Feed} {k : ℕ}, Stalled st k →
    k + l.length < queueBufferSize → ∃ st', st.run (l.flatMap wholePush) = some st' ∧
      Stalled st' (k + l.length) ∧ st'.read = st.read ++ l
  | [], st, k, h, _ => ⟨st, rfl, h, (List.append_nil _).symm⟩
  | trade :: l, st, k, h, hroom => by
    rw [List.length_cons] at hroom
    obtain ⟨st₁, hrun₁, h₁, hread₁⟩ := h.push (by omega) trade
    obtain ⟨st', hrun, h', hread⟩ := pushAll l h₁ (by omega)
    refine ⟨st', ?_, ?_, by rw [hread, hread₁, List.append_assoc]; rfl⟩
    · rw [List.flatMap_cons, Feed.run, List.foldlM_append]
      simp only [Feed.run] at hrun₁ hrun
      rw [hrun₁]
      exact hrun
    · rw [List.length_cons, Nat.add_comm l.length 1, ← Nat.add_assoc]
      exact h'

/-- A run of one trade more than the queue holds. -/
def overrun (trade : Trade) : List Action :=
  (List.replicate (queueBufferSize - 1) trade).flatMap wholePush ++ [.read trade, .produce,
    .produce]

/-- The trade with the number `2 ^ 20 - 1` is dropped. -/
theorem trade_dropped : ∃ st, (Feed.init fun _ => ⟨0, 0, 0, 0, 0, 0⟩).run
      (overrun ⟨1, 0, 100, 2, 3, 1, 5⟩) = some st ∧
    st.read.length = 2 ^ 20 ∧ st.queue.accepted.length = 2 ^ 20 - 1 ∧ ¬ Complete st := by
  have hstart : Stalled (.init fun _ => ⟨0, 0, 0, 0, 0, 0⟩) 0 :=
    ⟨inv_init _, ⟨false, rfl⟩, rfl, rfl⟩
  obtain ⟨st₁, hrun₁, h₁, hread₁⟩ := Stalled.pushAll
    (List.replicate (queueBufferSize - 1) ⟨1, 0, 100, 2, 3, 1, 5⟩) hstart
    (by rw [List.length_replicate]; decide)
  rw [List.length_replicate, Nat.zero_add] at h₁
  obtain ⟨st, hrun, h, hread⟩ := h₁.drop (by decide) ⟨1, 0, 100, 2, 3, 1, 5⟩
  have hlen : st.read.length = 2 ^ 20 := by
    rw [hread, hread₁, List.length_append, List.length_append, List.length_replicate]
    rfl
  refine ⟨st, ?_, hlen, h.accepted, fun hc => ?_⟩
  · rw [overrun, Feed.run, List.foldlM_append]
    simp only [Feed.run] at hrun₁ hrun
    rw [hrun₁]
    exact hrun
  · obtain ⟨result, hpc⟩ := h.producer
    have hkept := congrArg List.length hc.kept
    rw [length_messagesFrom, hlen, hpc, ProducerPc.item, Option.toList_none, List.append_nil,
      h.accepted] at hkept
    exact absurd hkept (by decide)

end MarketFeedReader

end TradeX
