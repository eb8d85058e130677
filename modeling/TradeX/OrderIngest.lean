import TradeX.Oms
import TradeX.QueueThreads
import TradeX.Library.Buffer
import TradeX.Library.Streams

/-!
# Receiving orders

The session threads of `OrderReceivingServer` and the consumer of `incoming_orders`, in any
order. A session reads the bytes of an order with `readExact`, in as many pieces as `recv`
returns them, and tries to enqueue it until it is taken. `enqueueClientOrder` holds a mutex
while it pushes, so the producer's side of the queue belongs to one session at a time; the
steps of `push` and of `pop` may still alternate. What the orders that have been popped are is
`popped_isInterleaving` : the beginning of an interleaving of the clients' streams, cut into
orders.
-/

namespace TradeX

/-- `sizeof(ClientOrder)`, with the padding after `symbol_id` and `is_active`. -/
def sizeofClientOrder : ℕ := 72

/-- The bytes of a `ClientOrder` in memory. An enumeration that is none of its values is taken
as the last branch of the source takes it. -/
def ClientOrder.ofBytes (bytes : List UInt8) : ClientOrder where
  clientOrderId := Buffer.fieldAt bytes 0 8
  price := Buffer.fieldAt bytes 8 8
  triggerPrice := Buffer.fieldAt bytes 16 8
  symbol := (bytes.drop 24).takeWhile (· ≠ 0)
  symbolId := Buffer.fieldAt bytes 32 4
  traderId := Buffer.fieldAt bytes 40 8
  type := if Buffer.fieldAt bytes 48 4 = 0 then .buy else .sell
  quantity := Buffer.fieldAt bytes 52 4
  displayQuantity := Buffer.fieldAt bytes 56 4
  filledQuantity := Buffer.fieldAt bytes 60 4
  executionType := match Buffer.fieldAt bytes 64 4 with
    | 0 => .market
    | 2 => .stopLoss
    | 3 => .iceberg
    | _ => .limit
  isActive := Buffer.fieldAt bytes 68 1 ≠ 0

/-- Where `clientSession` is : in `readExact` with the bytes it has received, with an order to
enqueue, in `push` with the mutex, or at its end. -/
inductive SessionPc
  | reading (received : List UInt8)
  | enqueuing (order : List UInt8)
  | pushing (order : List UInt8)
  | closed (received : List UInt8)
  deriving DecidableEq

/-- A session, with what the client has sent or will send and the session has not received. -/
structure Session where
  pc : SessionPc
  unread : List UInt8

/-- The bytes a session has received, since the last order it handed over. -/
def SessionPc.bytes : SessionPc → List UInt8
  | .reading received => received
  | .enqueuing order => order
  | .pushing order => order
  | .closed received => received

namespace Session

/-- `recv` returns `k` bytes, no more than it is asked for. -/
def recv (s : Session) (k : ℕ) : Option Session :=
  match s.pc with
  | .reading received =>
    if 0 < k ∧ k ≤ sizeofClientOrder - received.length ∧ k ≤ s.unread.length then
      if received.length + k < sizeofClientOrder then
        some ⟨.reading (received ++ s.unread.take k), s.unread.drop k⟩
      else some ⟨.enqueuing (received ++ s.unread.take k), s.unread.drop k⟩
    else none
  | _ => none

/-- `recv` fails with `EINTR`. -/
def interrupted (s : Session) : Option Session :=
  match s.pc with
  | .reading _ => some s
  | _ => none

/-- `recv` returns 0, at the end of the stream, or fails in another way. -/
def close (s : Session) : Option Session :=
  match s.pc with
  | .reading received => some { s with pc := .closed received }
  | _ => none

end Session

/-- The queue of orders, the session that holds the mutex, and the sessions. -/
structure OrderIngest where
  queue : QueueThreads ClientOrder
  holder : Option ℕ
  sessions : ℕ → Session

namespace OrderIngest

/-- The clients have connected, and nothing has been read. -/
def start (buffer : ℕ → ClientOrder) (clients : List (List UInt8)) : OrderIngest where
  queue := .init buffer
  holder := none
  sessions i := ⟨.reading [], clients.getD i []⟩

/-- A step of a session, of the lock, or of the thread that pops. -/
inductive Action
  | recv (i k : ℕ)
  | interrupted (i : ℕ)
  | close (i : ℕ)
  | lock (i : ℕ)
  | produce
  | unlock (i : ℕ)
  | callPop
  | consume

/-- A session changes. -/
def setSession (st : OrderIngest) (i : ℕ) (s : Session) : OrderIngest :=
  { st with sessions := Function.update st.sessions i s }

/-- `enqueueClientOrder` takes the mutex and calls `push`. -/
def lock (decode : List UInt8 → ClientOrder) (st : OrderIngest) (i : ℕ) : Option OrderIngest :=
  match st.holder, (st.sessions i).pc with
  | none, .enqueuing order => (st.queue.callPush (decode order)).map fun queue =>
      { st.setSession i { st.sessions i with pc := .pushing order } with
        queue := queue
        holder := some i }
  | _, _ => none

/-- `enqueueClientOrder` returns, and the session tries again or goes on. -/
def unlock (st : OrderIngest) (i : ℕ) : Option OrderIngest :=
  match st.holder, (st.sessions i).pc, st.queue.producer with
  | some j, .pushing order, .outside result =>
    if j = i then
      some { st.setSession i { st.sessions i with
          pc := if result then .reading [] else .enqueuing order } with
        holder := none }
    else none
  | _, _, _ => none

/-- `decode` is the layout of a `ClientOrder`. -/
def step (decode : List UInt8 → ClientOrder) (capacity : ℕ) (st : OrderIngest) :
    Action → Option OrderIngest
  | .recv i k => ((st.sessions i).recv k).map (st.setSession i)
  | .interrupted i => ((st.sessions i).interrupted).map (st.setSession i)
  | .close i => ((st.sessions i).close).map (st.setSession i)
  | .lock i => st.lock decode i
  | .produce => (st.queue.produce (RingBuffer.indexing capacity)).map fun queue =>
      { st with queue := queue }
  | .unlock i => st.unlock i
  | .callPop => st.queue.callPop.map fun queue => { st with queue := queue }
  | .consume => (st.queue.consume (RingBuffer.indexing capacity)).map fun queue =>
      { st with queue := queue }

/-- Steps in any order. -/
def run (decode : List UInt8 → ClientOrder) (capacity : ℕ) (st : OrderIngest)
    (actions : List Action) : Option OrderIngest :=
  actions.foldlM (step decode capacity) st

/-- The orders of a client. -/
def ordersOf (decode : List UInt8 → ClientOrder) (clients : List (List UInt8)) (i : ℕ) :
    List ClientOrder :=
  (Streams.frames sizeofClientOrder (clients.getD i [])).map decode

/-! ## What a session has -/

/-- A session has less than an order, or an order to hand over. -/
def Sized : SessionPc → Prop
  | .reading received => received.length < sizeofClientOrder
  | .enqueuing order => order.length = sizeofClientOrder
  | .pushing order => order.length = sizeofClientOrder
  | .closed received => received.length < sizeofClientOrder

/-- A session in `readExact` takes bytes from its stream, or stops. -/
structure Reads (s s' : Session) : Prop where
  reading : ∃ received, s.pc = .reading received
  notPushing : ∀ order, s'.pc ≠ .pushing order
  sized : Sized s.pc → Sized s'.pc
  bytes : s'.pc.bytes ++ s'.unread = s.pc.bytes ++ s.unread

theorem reads_recv {s s' : Session} {k : ℕ} (h : s.recv k = some s') : Reads s s' := by
  obtain ⟨pc, unread⟩ := s
  unfold Session.recv at h
  split at h
  next received hpc =>
    obtain rfl : pc = .reading received := hpc
    have hbytes : received ++ unread.take k ++ unread.drop k = received ++ unread := by
      rw [List.append_assoc, List.take_append_drop]
    split_ifs at h with hk hmore
    · cases h
      refine ⟨⟨received, rfl⟩, nofun, fun _ => ?_, hbytes⟩
      simpa [Sized, Nat.min_eq_left hk.2.2] using hmore
    · cases h
      refine ⟨⟨received, rfl⟩, nofun, fun hlt => ?_, hbytes⟩
      simp only [Sized, List.length_append, List.length_take] at hk hlt hmore ⊢
      omega
  next => cases h

theorem reads_interrupted {s s' : Session} (h : s.interrupted = some s') : Reads s s' := by
  unfold Session.interrupted at h
  split at h
  next received hpc =>
    cases h
    exact ⟨⟨received, hpc⟩, fun order => by rw [hpc]; exact nofun, id, rfl⟩
  next => cases h

theorem reads_close {s s' : Session} (h : s.close = some s') : Reads s s' := by
  unfold Session.close at h
  split at h
  next received hpc =>
    cases h
    exact ⟨⟨received, hpc⟩, nofun, fun hsized => by rwa [hpc] at hsized, by rw [hpc]; rfl⟩
  next => cases h

/-! ## What is kept -/

/-- The bytes a session has received, of orders that the queue has not accepted. An order
stays with its session until its `push` has succeeded. -/
def pending (st : OrderIngest) (i : ℕ) : List UInt8 :=
  match (st.sessions i).pc, st.queue.producer with
  | .pushing _, .outside true => []
  | pc, _ => pc.bytes

/-- The mutex and the sizes of what the sessions have. -/
structure Orderly (decode : List UInt8 → ClientOrder) (st : OrderIngest) : Prop where
  sized : ∀ i, Sized (st.sessions i).pc
  holder : ∀ i, st.holder = some i ↔ ∃ order, (st.sessions i).pc = .pushing order
  item : ∀ i order, (st.sessions i).pc = .pushing order →
    ∀ item, st.queue.producer.item = some item → item = decode order
  free : st.holder = none → st.queue.producer.item = none

/-- The bytes of each client are in the orders that the queue has accepted from it, in what
its session has, and in what is unread. -/
def Accounted (decode : List UInt8 → ClientOrder) (clients : List (List UInt8))
    (st : OrderIngest) : Prop :=
  ∃ T : List (ℕ × List UInt8), st.queue.accepted = T.map (fun e => decode e.2) ∧
    (∀ e ∈ T, e.2.length = sizeofClientOrder) ∧
    ∀ i, clients.getD i [] =
      (Streams.ofSource T i).flatten ++ (st.pending i ++ (st.sessions i).unread)

/-- The queue is sound, the sessions keep the lock, and every order is accounted for. -/
structure Inv (decode : List UInt8 → ClientOrder) (capacity : ℕ) (clients : List (List UInt8))
    (st : OrderIngest) : Prop where
  sound : st.queue.Sound (RingBuffer.indexing capacity) (RingBuffer.slotCount capacity)
    fun k => k % RingBuffer.slotCount capacity
  orderly : Orderly decode st
  accounted : Accounted decode clients st

variable {decode : List UInt8 → ClientOrder} {capacity : ℕ} {clients : List (List UInt8)}
  {st st' : OrderIngest} {i : ℕ}

theorem inv_start (hcap : 1 ≤ capacity) (buffer : ℕ → ClientOrder) :
    Inv decode capacity clients (start buffer clients) where
  sound := QueueThreads.sound_init (RingBuffer.counts hcap) buffer
  orderly := ⟨fun _ => Nat.zero_lt_succ 71, fun _ => ⟨nofun, nofun⟩, nofun, fun _ => rfl⟩
  accounted := ⟨[], rfl, nofun, fun _ => rfl⟩

theorem pending_of_notPushing (h : ∀ order, (st.sessions i).pc ≠ .pushing order) :
    st.pending i = (st.sessions i).pc.bytes := by
  unfold pending
  split
  next _ _ order hpc _ => exact absurd hpc (h order)
  next => rfl

theorem pending_of_ne (h : st.queue.producer ≠ .outside true) :
    st.pending i = (st.sessions i).pc.bytes := by
  unfold pending
  split
  next _ _ _ _ hpc => exact absurd hpc h
  next => rfl

/-- A step that the queue accepts nothing by. -/
theorem Accounted.same (h : Accounted decode clients st)
    (hacc : st'.queue.accepted = st.queue.accepted)
    (hbytes : ∀ i, st'.pending i ++ (st'.sessions i).unread =
      st.pending i ++ (st.sessions i).unread) : Accounted decode clients st' := by
  obtain ⟨T, hT, hlen, hsplit⟩ := h
  exact ⟨T, hacc.trans hT, hlen, fun i => by rw [hbytes i, hsplit i]⟩

/-- The sessions other than `i` are not changed. -/
theorem setSession_of_ne {s : Session} {j : ℕ} (h : j ≠ i) :
    (st.setSession i s).sessions j = st.sessions j :=
  Function.update_of_ne h ..

theorem setSession_self {s : Session} : (st.setSession i s).sessions i = s :=
  Function.update_self ..

theorem pending_congr {j : ℕ} (hs : st'.sessions j = st.sessions j)
    (hq : st'.queue.producer = st.queue.producer) : st'.pending j = st.pending j := by
  rw [pending, pending, hs, hq]

/-- Steps of `readExact` keep the invariant. -/
theorem Inv.reads (h : Inv decode capacity clients st) {s : Session}
    (hs : Reads (st.sessions i) s) : Inv decode capacity clients (st.setSession i s) := by
  have hnot : ∀ order, (st.sessions i).pc ≠ .pushing order := fun order hpc => by
    obtain ⟨received, hread⟩ := hs.reading
    rw [hread] at hpc
    cases hpc
  refine ⟨h.sound, ⟨fun j => ?_, fun j => ?_, fun j order => ?_, h.orderly.free⟩,
    h.accounted.same rfl fun j => ?_⟩ <;> rcases eq_or_ne j i with rfl | hne
  · rw [setSession_self]
    exact hs.sized (h.orderly.sized j)
  · rw [setSession_of_ne hne]
    exact h.orderly.sized j
  · rw [setSession_self]
    refine (h.orderly.holder j).trans (iff_of_false ?_ ?_)
    · exact fun hpc => hpc.elim hnot
    · exact fun hpc => hpc.elim hs.notPushing
  · rw [setSession_of_ne hne]
    exact h.orderly.holder j
  · rw [setSession_self]
    exact fun hpc => absurd hpc (hs.notPushing order)
  · rw [setSession_of_ne hne]
    exact h.orderly.item j order
  · rw [pending_of_notPushing hnot, pending_of_notPushing (by
      rw [setSession_self]
      exact hs.notPushing), setSession_self]
    exact hs.bytes
  · rw [pending_congr (setSession_of_ne hne) rfl, setSession_of_ne hne]

/-- The mutex is taken or released by session `i`. -/
theorem Inv.handover (h : Inv decode capacity clients st)
    (hothers : ∀ j, j ≠ i → ∀ order, (st.sessions j).pc ≠ .pushing order)
    {queue : QueueThreads ClientOrder} {holder : Option ℕ} {s : Session}
    (hsound : queue.Sound (RingBuffer.indexing capacity) (RingBuffer.slotCount capacity)
      fun k => k % RingBuffer.slotCount capacity)
    (hacc : queue.accepted = st.queue.accepted) (hsized : Sized s.pc)
    (hmutex : (holder = none ∧ queue.producer.item = none ∧
      ∀ order, s.pc ≠ .pushing order) ∨
      holder = some i ∧ ∃ order, s.pc = .pushing order ∧
        queue.producer = .called (decode order))
    (hbytes : OrderIngest.pending ⟨queue, holder, (st.setSession i s).sessions⟩ i ++ s.unread =
      st.pending i ++ (st.sessions i).unread) :
    Inv decode capacity clients ⟨queue, holder, (st.setSession i s).sessions⟩ := by
  refine ⟨hsound, ⟨fun j => ?_, fun j => ?_, fun j order hpc => ?_, fun hfree => ?_⟩,
    h.accounted.same hacc fun j => ?_⟩
  · rcases eq_or_ne j i with rfl | hne
    · simpa only [setSession_self] using hsized
    · simpa only [setSession_of_ne hne] using h.orderly.sized j
  · rcases eq_or_ne j i with rfl | hne
    · simp only [setSession_self]
      rcases hmutex with ⟨rfl, -, hnot⟩ | ⟨rfl, order, hpc, -⟩
      · exact iff_of_false nofun fun hpc => hpc.elim hnot
      · exact iff_of_true rfl ⟨order, hpc⟩
    · simp only [setSession_of_ne hne]
      refine iff_of_false (fun hj => ?_) fun hpc => hpc.elim (hothers j hne)
      rcases hmutex with ⟨rfl, -⟩ | ⟨rfl, -⟩
      · cases hj
      · exact hne (Option.some.inj hj).symm
  · rcases eq_or_ne j i with rfl | hne
    · simp only [setSession_self] at hpc
      rcases hmutex with ⟨-, -, hnot⟩ | ⟨-, order', hpc', hcalled⟩
      · exact absurd hpc (hnot order)
      · obtain rfl := SessionPc.pushing.inj (hpc.symm.trans hpc')
        simp only [hcalled]
        exact fun item hitem => (Option.some.inj hitem).symm
    · simp only [setSession_of_ne hne] at hpc
      exact absurd hpc (hothers j hne order)
  · rcases hmutex with ⟨-, hitem, -⟩ | ⟨rfl, -⟩
    · exact hitem
    · cases hfree
  · rcases eq_or_ne j i with rfl | hne
    · simpa only [setSession_self] using hbytes
    · rw [pending_of_notPushing (hothers j hne), pending_of_notPushing (by
        simpa only [setSession_of_ne hne] using hothers j hne)]
      simp only [setSession_of_ne hne]

/-- Only the session that holds the mutex is in `push`. -/
theorem Orderly.others (h : Orderly decode st) (hholder : st.holder = none ∨ st.holder = some i) :
    ∀ j, j ≠ i → ∀ order, (st.sessions j).pc ≠ .pushing order := by
  intro j hne order hpc
  have hj := (h.holder j).2 ⟨order, hpc⟩
  rcases hholder with hholder | hholder <;> rw [hholder] at hj
  · cases hj
  · exact hne (Option.some.inj hj).symm

theorem Inv.lock (h : Inv decode capacity clients st) (hstep : st.lock decode i = some st') :
    Inv decode capacity clients st' := by
  unfold OrderIngest.lock at hstep
  split at hstep
  next order hfree hpc =>
    obtain ⟨queue, hq, rfl⟩ := Option.map_eq_some_iff.1 hstep
    obtain ⟨hacc, hproducer⟩ := QueueThreads.callPush_same hq
    have hsized := h.orderly.sized i
    rw [hpc] at hsized
    refine h.handover (h.orderly.others (Or.inl hfree)) (h.sound.callPush hq) hacc hsized
      (Or.inr ⟨rfl, order, rfl, hproducer⟩) ?_
    rw [pending_of_ne (by simp [hproducer]), pending_of_notPushing (by simp [hpc])]
    simp only [setSession_self, hpc, SessionPc.bytes]
  next => cases hstep

theorem Inv.unlock (h : Inv decode capacity clients st) (hstep : st.unlock i = some st') :
    Inv decode capacity clients st' := by
  unfold OrderIngest.unlock at hstep
  split at hstep
  next holder order result hholder hpc hproducer =>
    obtain ⟨rfl, hstep⟩ := Option.ite_none_right_eq_some.1 hstep
    cases hstep
    have hsized := h.orderly.sized holder
    rw [hpc] at hsized
    refine h.handover (h.orderly.others (Or.inr hholder)) h.sound rfl ?_
      (Or.inl ⟨rfl, congrArg ProducerPc.item hproducer, ?_⟩) ?_
    · cases result
      · exact hsized
      · exact Nat.zero_lt_succ 71
    · cases result <;> exact nofun
    · cases result <;> simp [pending, setSession, hpc, hproducer, SessionPc.bytes]
  next => cases hstep

/-- The queue accepts the order of the session that holds the mutex. -/
theorem Accounted.accept (h : Accounted decode clients st) (horderly : Orderly decode st)
    (hholder : st.holder = some i) {order : List UInt8} (hpc : (st.sessions i).pc = .pushing order)
    (hpending : ∀ j, st.pending j = (st.sessions j).pc.bytes) {queue : QueueThreads ClientOrder}
    (hproducer : queue.producer = .outside true)
    (hacc : queue.accepted = st.queue.accepted ++ [decode order]) :
    Accounted decode clients { st with queue := queue } := by
  obtain ⟨T, hT, hlen, hsplit⟩ := h
  have hsized := horderly.sized i
  rw [hpc] at hsized
  refine ⟨T ++ [(i, order)], ?_, ?_, fun j => ?_⟩
  · simp only [hacc, hT, List.map_append, List.map_singleton]
  · intro e he
    rcases List.mem_append.1 he with he | he
    · exact hlen e he
    · rw [List.mem_singleton.1 he]
      exact hsized
  · rw [hsplit j, hpending j, Streams.ofSource_append]
    rcases eq_or_ne j i with rfl | hne
    · simp [Streams.ofSource, pending, hpc, hproducer, SessionPc.bytes]
    · have hnot := horderly.others (Or.inr hholder) j hne
      rw [pending_of_notPushing (by simpa using hnot)]
      simp [Streams.ofSource, hne.symm]

/-- A step of `push`, which the session with the mutex is in. -/
theorem Inv.produce (hcap : 1 ≤ capacity) (h : Inv decode capacity clients st)
    {queue : QueueThreads ClientOrder}
    (hq : st.queue.produce (RingBuffer.indexing capacity) = some queue) :
    Inv decode capacity clients { st with queue := queue } := by
  obtain ⟨item, hitem, hnext⟩ := QueueThreads.produce_cases hq
  have hpending : ∀ j, st.pending j = (st.sessions j).pc.bytes := fun j =>
    pending_of_ne fun hpc => by
      rw [hpc] at hitem
      cases hitem
  obtain ⟨i, hholder⟩ : ∃ i, st.holder = some i := by
    refine Option.ne_none_iff_exists'.1 fun hfree => ?_
    rw [h.orderly.free hfree] at hitem
    cases hitem
  have hsame : ∀ item', queue.producer.item = some item' → item' = item := by
    intro item' hitem'
    rcases hnext with ⟨hsame, -⟩ | ⟨hproducer, -⟩ | ⟨hproducer, -⟩
    · exact Option.some.inj (hitem'.symm.trans hsame)
    · rw [hproducer] at hitem'
      cases hitem'
    · rw [hproducer] at hitem'
      cases hitem'
  refine ⟨h.sound.produce (RingBuffer.counts hcap) hq, ⟨h.orderly.sized, h.orderly.holder,
    fun j order hpc item' hitem' => ?_, fun hfree => ?_⟩, ?_⟩
  · rw [hsame item' hitem']
    exact h.orderly.item j order hpc item hitem
  · exact absurd (hholder.symm.trans hfree) nofun
  · rcases hnext with ⟨hgoing, hacc⟩ | ⟨hrefused, hacc⟩ | ⟨haccepted, hacc⟩
    · refine h.accounted.same hacc fun j => ?_
      have hne : queue.producer ≠ .outside true := fun hpc => by
        rw [hpc] at hgoing
        cases hgoing
      rw [hpending j, pending_of_ne hne]
    · refine h.accounted.same hacc fun j => ?_
      have hne : queue.producer ≠ .outside true := by simp [hrefused]
      rw [hpending j, pending_of_ne hne]
    · obtain ⟨order, hpc⟩ := (h.orderly.holder i).1 hholder
      obtain rfl := h.orderly.item i order hpc item hitem
      exact h.accounted.accept h.orderly hholder hpc hpending haccepted hacc

/-- A step of the consumer. -/
theorem Inv.consumer (h : Inv decode capacity clients st) {queue : QueueThreads ClientOrder}
    (hsound : queue.Sound (RingBuffer.indexing capacity) (RingBuffer.slotCount capacity)
      fun k => k % RingBuffer.slotCount capacity)
    (hsame : queue.accepted = st.queue.accepted ∧ queue.producer = st.queue.producer) :
    Inv decode capacity clients { st with queue := queue } := by
  obtain ⟨hacc, hproducer⟩ := hsame
  refine ⟨hsound, ⟨h.orderly.sized, h.orderly.holder, ?_, ?_⟩,
    h.accounted.same hacc fun j => ?_⟩
  · simp only [hproducer]
    exact h.orderly.item
  · simp only [hproducer]
    exact h.orderly.free
  · have hpending : OrderIngest.pending { st with queue := queue } j = st.pending j :=
      pending_congr rfl hproducer
    rw [hpending]

theorem Inv.step (hcap : 1 ≤ capacity) (h : Inv decode capacity clients st) {a : Action}
    (hstep : st.step decode capacity a = some st') : Inv decode capacity clients st' := by
  cases a with
  | recv i k =>
    obtain ⟨s, hs, rfl⟩ := Option.map_eq_some_iff.1 hstep
    exact h.reads (reads_recv hs)
  | interrupted i =>
    obtain ⟨s, hs, rfl⟩ := Option.map_eq_some_iff.1 hstep
    exact h.reads (reads_interrupted hs)
  | close i =>
    obtain ⟨s, hs, rfl⟩ := Option.map_eq_some_iff.1 hstep
    exact h.reads (reads_close hs)
  | lock i => exact h.lock hstep
  | produce =>
    obtain ⟨queue, hq, rfl⟩ := Option.map_eq_some_iff.1 hstep
    exact h.produce hcap hq
  | unlock i => exact h.unlock hstep
  | callPop =>
    obtain ⟨queue, hq, rfl⟩ := Option.map_eq_some_iff.1 hstep
    exact h.consumer (h.sound.callPop hq) (QueueThreads.callPop_same hq)
  | consume =>
    obtain ⟨queue, hq, rfl⟩ := Option.map_eq_some_iff.1 hstep
    exact h.consumer (h.sound.consume (RingBuffer.counts hcap) hq) (QueueThreads.consume_same hq)

theorem Inv.run (hcap : 1 ≤ capacity) (h : Inv decode capacity clients st) {actions : List Action}
    (hrun : st.run decode capacity actions = some st') : Inv decode capacity clients st' :=
  Runs.Steps.invariant (P := fun _ _ => True) (fun h _ hstep => h.step hcap hstep) h
    (.of_forall_mem fun _ _ _ => trivial) (Runs.steps_iff_some.2 hrun)

/-! ## The orders -/

/-- The orders that the queue has accepted from a client are the first of its stream, and what
follows is in the bytes that it has not. -/
theorem Accounted.exists_orders (h : Accounted decode clients st) :
    ∃ T : List (ℕ × ClientOrder), st.queue.accepted = T.map Prod.snd ∧
      ∀ i, ordersOf decode clients i = Streams.ofSource T i ++
        (Streams.frames sizeofClientOrder (st.pending i ++ (st.sessions i).unread)).map decode := by
  obtain ⟨T, hT, hlen, hsplit⟩ := h
  refine ⟨T.map fun e => (e.1, decode e.2), ?_, fun i => ?_⟩
  · rw [hT, List.map_map]
    rfl
  · have hframes : ∀ f ∈ Streams.ofSource T i, f.length = sizeofClientOrder := fun f hf =>
      hlen (i, f) (Streams.mem_of_mem_ofSource hf)
    rw [Streams.ofSource_map, ordersOf, hsplit i,
      Streams.frames_flatten_append (by decide) hframes, List.map_append]

/-- Every session has read its stream to the end and enqueued the last order it has found. -/
def Drained (st : OrderIngest) : Prop :=
  ∀ i, (st.sessions i).unread = [] ∧
    ∃ received, (st.sessions i).pc = .reading received ∨ (st.sessions i).pc = .closed received

/-- Nothing is left when the sessions have come to their ends. -/
theorem Inv.frames_of_drained (h : Inv decode capacity clients st) (hdrained : Drained st)
    (i : ℕ) : Streams.frames sizeofClientOrder (st.pending i ++ (st.sessions i).unread) = [] := by
  obtain ⟨hunread, received, hpc⟩ := hdrained i
  have hsized := h.orderly.sized i
  rw [pending_of_notPushing (by rcases hpc with hpc | hpc <;> simp [hpc]), hunread, List.append_nil]
  refine Streams.frames_of_lt ?_
  rcases hpc with hpc | hpc <;> rw [hpc] at hsized ⊢ <;> exact hsized

/-- However the streams are split and the threads interleaved, the orders that have been popped
are the beginning of an interleaving of the clients' orders. When every stream has been read to
its end, what the queue has accepted is the whole of one. -/
theorem popped_isInterleaving (hcap : 1 ≤ capacity) (buffer : ℕ → ClientOrder)
    {actions : List Action}
    (hrun : (start buffer clients).run decode capacity actions = some st) :
    (∃ l, Streams.IsInterleaving (ordersOf decode clients) l ∧ st.queue.popped <+: l) ∧
      (Drained st → Streams.IsInterleaving (ordersOf decode clients) st.queue.accepted) := by
  have h : Inv decode capacity clients st := (inv_start hcap buffer).run hcap hrun
  obtain ⟨T, hT, horders⟩ := h.accounted.exists_orders
  constructor
  · have hnone : ∀ i, clients.length ≤ i → ordersOf decode clients i = [] := fun i hi => by
      rw [ordersOf, List.getD_eq_default _ _ hi]
      rfl
    obtain ⟨l, hl, hpre⟩ := Streams.exists_interleaving (T := T)
      (fun i => ⟨_, (horders i).symm⟩) hnone
    obtain ⟨rest, hrest, -⟩ := h.sound.held
    refine ⟨l, hl, List.IsPrefix.trans ⟨rest, hrest.symm⟩ ?_⟩
    rwa [hT]
  · intro hdrained
    refine ⟨T, hT.symm, fun i => ?_⟩
    rw [horders i, h.frames_of_drained hdrained i, List.map_nil, List.append_nil]

/-- Two clients : the first sends an order in two pieces, and the second stops in the middle of
its second order. The queue has one slot that can be used, and refuses an order once. -/
def twoClients : List (List UInt8) :=
  [List.replicate 72 1, List.replicate 72 2 ++ List.replicate 5 3]

/-- Two clients whose orders come in parts, with one order of the second cut off. -/
def twoClientsRun : List Action :=
  [.recv 0 40, .recv 1 72, .interrupted 0, .lock 1, .recv 0 32, .produce, .produce, .produce,
    .produce,
    .unlock 1, .lock 0, .produce, .callPop, .produce, .recv 1 5, .consume, .unlock 0, .consume,
    .consume, .consume, .lock 0, .close 1, .produce, .produce, .produce, .produce, .unlock 0]

theorem popped_isInterleaving_twoClients : ∃ st,
    (start (fun _ => .zero) twoClients).run .ofBytes 6 twoClientsRun = some st ∧
    st.queue.popped = [.ofBytes (List.replicate 72 2)] ∧
    (∃ l, Streams.IsInterleaving (ordersOf .ofBytes twoClients) l ∧ st.queue.popped <+: l) ∧
    (Drained st → Streams.IsInterleaving (ordersOf .ofBytes twoClients) st.queue.accepted) := by
  have hview : ((start (fun _ => .zero) twoClients).run .ofBytes 6 twoClientsRun).map
      (fun st => st.queue.popped) = some [.ofBytes (List.replicate 72 2)] := by decide +kernel
  obtain ⟨st, hrun, hpopped⟩ := Option.map_eq_some_iff.1 hview
  exact ⟨st, hrun, hpopped, popped_isInterleaving (by decide) _ hrun⟩

end OrderIngest

end TradeX
