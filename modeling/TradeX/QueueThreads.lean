import TradeX.RingBuffer
import TradeX.SpscQueue
import TradeX.Library.Runs

/-!
# The queues under concurrency

`push` and `pop` of `RingBuffer` and of `spsc_queue` step by step, with one producer and one
consumer in any order : each load and store of an index and each access to a slot is a step of
its own. The two queues do the same with their indices but for how they advance them, which
slot an index stands for, and which index `push` loads first; an `Indexing` says that, and the
steps are written once.

Between a load and a store each side acts on an index that the other may have moved on. The
other only ever makes room, or adds items, so what a side has found out stays true (`Sound`).
`run_isQueue` is what follows for `RingBuffer`, at every capacity.
-/

namespace TradeX

/-- How a queue uses its indices : the size of the array, the index after an index, the slot of
an index, and whether `push` loads the head before the tail. -/
structure Indexing where
  size : ℕ
  next : ℕ → ℕ
  slot : ℕ → ℕ
  headFirst : Bool

/-- Where `push` is : not called, with the result of the last call; before the first load; with
the first index loaded; with room for the item; with the item written. -/
inductive ProducerPc (α : Type)
  | outside (result : Bool)
  | called (item : α)
  | loaded (item : α) (index : ℕ)
  | writing (item : α) (tail : ℕ)
  | storing (item : α) (tail : ℕ)

/-- The item that `push` is at. -/
def ProducerPc.item {α : Type} : ProducerPc α → Option α
  | .outside _ => none
  | .called item => some item
  | .loaded item _ => some item
  | .writing item _ => some item
  | .storing item _ => some item

/-- Where `pop` is. -/
inductive ConsumerPc (α : Type)
  | outside (result : Option α)
  | called
  | loaded (head : ℕ)
  | reading (head : ℕ)
  | storing (item : α) (head : ℕ)

/-- The result of `push`, where it has returned. -/
def ProducerPc.result? {α : Type} : ProducerPc α → Option Bool
  | .outside result => some result
  | _ => none

/-- The result of `pop`, where it has returned. -/
def ConsumerPc.result? {α : Type} : ConsumerPc α → Option (Option α)
  | .outside result => some result
  | _ => none

/-- A queue and its two threads, with the items of the calls of `push` that have succeeded and
of the calls of `pop` that have. -/
structure QueueThreads (α : Type) where
  array : ℕ → α
  head : ℕ
  tail : ℕ
  producer : ProducerPc α
  consumer : ConsumerPc α
  accepted : List α
  popped : List α

namespace QueueThreads

variable {α : Type}

/-- An empty queue, with an array that holds anything. -/
def init (array : ℕ → α) : QueueThreads α :=
  ⟨array, 0, 0, .outside false, .outside none, [], []⟩

/-- A call of `push`. -/
def callPush (st : QueueThreads α) (item : α) : Option (QueueThreads α) :=
  match st.producer with
  | .outside _ => some { st with producer := .called item }
  | _ => none

/-- The head and the tail that `push` compares, when it has loaded `index` first. -/
def headSeen (ix : Indexing) (st : QueueThreads α) (index : ℕ) : ℕ :=
  if ix.headFirst then index else st.head

/-- The tail that it compares. -/
def tailSeen (ix : Indexing) (st : QueueThreads α) (index : ℕ) : ℕ :=
  if ix.headFirst then st.tail else index

/-- The next step of `push`. -/
def produce (ix : Indexing) (st : QueueThreads α) : Option (QueueThreads α) :=
  match st.producer with
  | .outside _ => none
  | .called item => some { st with
      producer := .loaded item (if ix.headFirst then st.head else st.tail) }
  | .loaded item index =>
    if ix.slot (ix.next (st.tailSeen ix index)) = ix.slot (st.headSeen ix index) then
      some { st with producer := .outside false }
    else some { st with producer := .writing item (st.tailSeen ix index) }
  | .writing item tail => some { st with
      array := Function.update st.array (ix.slot tail) item
      producer := .storing item tail }
  | .storing item tail => some { st with
      tail := ix.next tail
      producer := .outside true
      accepted := st.accepted ++ [item] }

/-- A call of `pop`. -/
def callPop (st : QueueThreads α) : Option (QueueThreads α) :=
  match st.consumer with
  | .outside _ => some { st with consumer := .called }
  | _ => none

/-- The next step of `pop`. -/
def consume (ix : Indexing) (st : QueueThreads α) : Option (QueueThreads α) :=
  match st.consumer with
  | .outside _ => none
  | .called => some { st with consumer := .loaded st.head }
  | .loaded head =>
    if head = st.tail then some { st with consumer := .outside none }
    else some { st with consumer := .reading head }
  | .reading head => some { st with consumer := .storing (st.array (ix.slot head)) head }
  | .storing item head => some { st with
      head := ix.next head
      consumer := .outside (some item)
      popped := st.popped ++ [item] }

/-- What a thread does next. -/
inductive Action (α : Type)
  | callPush (item : α)
  | produce
  | callPop
  | consume

/-- A step, if it can be taken. -/
def step (ix : Indexing) (st : QueueThreads α) : Action α → Option (QueueThreads α)
  | .callPush item => st.callPush item
  | .produce => st.produce ix
  | .callPop => st.callPop
  | .consume => st.consume ix

/-- Steps in any order. -/
def run (ix : Indexing) (st : QueueThreads α) (actions : List (Action α)) :
    Option (QueueThreads α) :=
  actions.foldlM (step ix) st

/-- What a step of `push` does with its item : it goes on with it, or refuses it, or the queue
has accepted it. -/
theorem produce_cases {ix : Indexing} {st st' : QueueThreads α}
    (hstep : st.produce ix = some st') : ∃ item, st.producer.item = some item ∧
      (st'.producer.item = some item ∧ st'.accepted = st.accepted ∨
        st'.producer = .outside false ∧ st'.accepted = st.accepted ∨
        st'.producer = .outside true ∧ st'.accepted = st.accepted ++ [item]) := by
  unfold produce at hstep
  split at hstep
  next => cases hstep
  next item hpc =>
    cases hstep
    exact ⟨item, by rw [hpc]; rfl, Or.inl ⟨rfl, rfl⟩⟩
  next item index hpc =>
    refine ⟨item, by rw [hpc]; rfl, ?_⟩
    split_ifs at hstep
    · cases hstep
      exact Or.inr (Or.inl ⟨rfl, rfl⟩)
    · cases hstep
      exact Or.inl ⟨rfl, rfl⟩
  next item tail hpc =>
    cases hstep
    exact ⟨item, by rw [hpc]; rfl, Or.inl ⟨rfl, rfl⟩⟩
  next item tail hpc =>
    cases hstep
    exact ⟨item, by rw [hpc]; rfl, Or.inr (Or.inr ⟨rfl, rfl⟩)⟩

/-- The producer leaves the consumer alone. -/
theorem produce_same {ix : Indexing} {st st' : QueueThreads α} (hstep : st.produce ix = some st') :
    st'.popped = st.popped ∧ st'.head = st.head ∧ st'.consumer = st.consumer := by
  unfold produce at hstep
  split at hstep
  · cases hstep
  · cases hstep
    exact ⟨rfl, rfl, rfl⟩
  · split_ifs at hstep <;> cases hstep <;> exact ⟨rfl, rfl, rfl⟩
  · cases hstep
    exact ⟨rfl, rfl, rfl⟩
  · cases hstep
    exact ⟨rfl, rfl, rfl⟩

theorem callPush_same {st st' : QueueThreads α} {item : α} (hstep : st.callPush item = some st') :
    st'.accepted = st.accepted ∧ st'.producer = .called item := by
  unfold callPush at hstep
  split at hstep
  · cases hstep
    exact ⟨rfl, rfl⟩
  · cases hstep

/-- The consumer leaves the producer alone. -/
theorem callPop_same {st st' : QueueThreads α} (hstep : st.callPop = some st') :
    st'.accepted = st.accepted ∧ st'.producer = st.producer := by
  unfold callPop at hstep
  split at hstep
  · cases hstep
    exact ⟨rfl, rfl⟩
  · cases hstep

theorem consume_same {ix : Indexing} {st st' : QueueThreads α} (hstep : st.consume ix = some st') :
    st'.accepted = st.accepted ∧ st'.producer = st.producer := by
  unfold consume at hstep
  split at hstep
  · cases hstep
  · cases hstep
    exact ⟨rfl, rfl⟩
  · split_ifs at hstep <;> cases hstep <;> exact ⟨rfl, rfl⟩
  · cases hstep
    exact ⟨rfl, rfl⟩
  · cases hstep
    exact ⟨rfl, rfl⟩

/-- A call of `pop` that has not returned goes on. -/
theorem exists_consume (ix : Indexing) {st : QueueThreads α} (h : st.consumer.result? = none) :
    ∃ st', st.consume ix = some st' := by
  unfold consume
  split
  next result hpc =>
    rw [hpc] at h
    cases h
  next => exact ⟨_, rfl⟩
  next head hpc => split_ifs <;> exact ⟨_, rfl⟩
  next => exact ⟨_, rfl⟩
  next => exact ⟨_, rfl⟩

/-- One that has returned can be followed by another. -/
theorem exists_callPop {st : QueueThreads α} (h : st.consumer.result? ≠ none) :
    ∃ st', st.callPop = some st' := by
  unfold callPop
  split
  next => exact ⟨_, rfl⟩
  next hpc =>
    refine absurd ?_ h
    unfold ConsumerPc.result?
    split
    next result hpc' => exact absurd hpc' (hpc result)
    next => rfl

/-! ## Counting -/

/-- The indices of a queue count modulo something : `idx k` is the index after `k` items, and
they go through `n` slots in turn. -/
structure Counts (ix : Indexing) (n : ℕ) (idx : ℕ → ℕ) : Prop where
  pos : 0 < n
  le_size : n ≤ ix.size
  zero : idx 0 = 0
  next : ∀ k, ix.next (idx k) = idx (k + 1)
  slot : ∀ k, ix.slot (idx k) = k % n
  inj : ∀ {j k}, j ≤ k → k < j + n → idx j = idx k → j = k

/-- What `push` has found out : the index it has loaded, and that there is room. -/
def ProducerKnows (ix : Indexing) (n : ℕ) (idx : ℕ → ℕ) (st : QueueThreads α) : Prop :=
  match st.producer with
  | .outside _ => True
  | .called _ => True
  | .loaded _ index =>
    if ix.headFirst then ∃ k ≤ st.popped.length, st.accepted.length < k + n ∧ index = idx k
    else index = idx st.accepted.length
  | .writing _ tail => tail = idx st.accepted.length ∧
      st.accepted.length + 1 < st.popped.length + n
  | .storing item tail => tail = idx st.accepted.length ∧
      st.accepted.length + 1 < st.popped.length + n ∧ st.array (st.accepted.length % n) = item

/-- What `pop` has found out : the index it has loaded, and that there is an item. -/
def ConsumerKnows (n : ℕ) (idx : ℕ → ℕ) (st : QueueThreads α) : Prop :=
  match st.consumer with
  | .outside _ => True
  | .called => True
  | .loaded head => head = idx st.popped.length
  | .reading head => head = idx st.popped.length ∧ st.popped.length < st.accepted.length
  | .storing item head => head = idx st.popped.length ∧ st.popped.length < st.accepted.length ∧
      st.array (st.popped.length % n) = item

/-- The items that have been accepted are those that have been popped, and those in the slots
from the head on. -/
structure Sound (ix : Indexing) (n : ℕ) (idx : ℕ → ℕ) (st : QueueThreads α) : Prop where
  held : ∃ rest, st.accepted = st.popped ++ rest ∧ Ring.Slots n st.popped.length st.array rest
  head : st.head = idx st.popped.length
  tail : st.tail = idx st.accepted.length
  producer : ProducerKnows ix n idx st
  consumer : ConsumerKnows n idx st

variable {ix : Indexing} {n : ℕ} {idx : ℕ → ℕ} {st st' : QueueThreads α}

theorem sound_init (hc : Counts ix n idx) (array : ℕ → α) : Sound ix n idx (init array) :=
  ⟨⟨[], rfl, .empty hc.pos 0 array⟩, hc.zero.symm, hc.zero.symm, trivial, trivial⟩

theorem Sound.length_le (h : Sound ix n idx st) :
    st.popped.length ≤ st.accepted.length ∧ st.accepted.length < st.popped.length + n := by
  obtain ⟨rest, hrest, hslots⟩ := h.held
  have hlt := hslots.lt
  rw [hrest, List.length_append]
  omega

theorem Sound.callPush (h : Sound ix n idx st) {item : α} (hstep : st.callPush item = some st') :
    Sound ix n idx st' := by
  unfold QueueThreads.callPush at hstep
  split at hstep
  · cases hstep
    exact ⟨h.held, h.head, h.tail, trivial, h.consumer⟩
  · cases hstep

theorem Sound.callPop (h : Sound ix n idx st) (hstep : st.callPop = some st') :
    Sound ix n idx st' := by
  unfold QueueThreads.callPop at hstep
  split at hstep
  · cases hstep
    exact ⟨h.held, h.head, h.tail, h.producer, trivial⟩
  · cases hstep

/-- A `push` that does not find the queue full has room. -/
theorem Sound.room (hc : Counts ix n idx) (h : Sound ix n idx st) {item : α} {index : ℕ}
    (hpc : st.producer = .loaded item index) :
    st.tailSeen ix index = idx st.accepted.length ∧
      (ix.slot (ix.next (st.tailSeen ix index)) ≠ ix.slot (st.headSeen ix index) →
        st.accepted.length + 1 < st.popped.length + n) := by
  have hp := h.producer
  simp only [ProducerKnows, hpc] at hp
  have hlen := h.length_le
  rw [tailSeen, headSeen]
  split_ifs at hp ⊢ with hfirst
  · obtain ⟨k, hk, hlt, rfl⟩ := hp
    refine ⟨h.tail, fun hne => ?_⟩
    rw [h.tail, hc.next, hc.slot, hc.slot] at hne
    have hfull : st.accepted.length + 1 ≠ k + n := fun heq => hne (by rw [heq, Nat.add_mod_right])
    omega
  · refine ⟨hp, fun hne => ?_⟩
    rw [hp, hc.next, hc.slot, h.head, hc.slot] at hne
    have hfull : st.accepted.length + 1 ≠ st.popped.length + n := fun heq =>
      hne (by rw [heq, Nat.add_mod_right])
    omega

/-- The slot after the last item is free. -/
theorem Sound.write (hc : Counts ix n idx) (h : Sound ix n idx st) {item : α} {tail : ℕ}
    (hpc : st.producer = .writing item tail) :
    Sound ix n idx { st with
      array := Function.update st.array (ix.slot tail) item
      producer := .storing item tail } := by
  have hp := h.producer
  simp only [ProducerKnows, hpc] at hp
  obtain ⟨rfl, hroom⟩ := hp
  rw [hc.slot]
  refine ⟨?_, h.head, h.tail, ⟨rfl, hroom, Function.update_self ..⟩, ?_⟩
  · obtain ⟨rest, hrest, hslots⟩ := h.held
    refine ⟨rest, hrest, ?_⟩
    rw [hrest, List.length_append]
    exact hslots.write item
  · have hcons := h.consumer
    unfold ConsumerKnows at hcons ⊢
    simp only
    split at hcons
    · trivial
    · trivial
    · exact hcons
    · exact hcons
    · obtain ⟨rfl, hlt, hitem⟩ := hcons
      refine ⟨rfl, hlt, ?_⟩
      rw [Function.update_of_ne (Ring.mod_ne_of_lt hlt (by omega)).symm]
      exact hitem

/-- The item becomes the last. -/
theorem Sound.storeTail (hc : Counts ix n idx) (h : Sound ix n idx st) {item : α} {tail : ℕ}
    (hpc : st.producer = .storing item tail) :
    Sound ix n idx { st with
      tail := ix.next tail
      producer := .outside true
      accepted := st.accepted ++ [item] } := by
  have hp := h.producer
  simp only [ProducerKnows, hpc] at hp
  obtain ⟨rfl, hroom, hitem⟩ := hp
  have hlen : (st.accepted ++ [item]).length = st.accepted.length + 1 := by simp
  refine ⟨?_, h.head, ?_, trivial, ?_⟩
  · obtain ⟨rest, hrest, hslots⟩ := h.held
    rw [hrest, List.length_append] at hitem hroom
    exact ⟨rest ++ [item], by simp only [hrest, List.append_assoc],
      hslots.concat (by omega) hitem⟩
  · rw [hc.next]
    simp only [hlen]
  · have hcons := h.consumer
    unfold ConsumerKnows at hcons ⊢
    simp only [hlen]
    split at hcons
    · trivial
    · trivial
    · exact hcons
    · exact ⟨hcons.1, Nat.lt_succ_of_lt hcons.2⟩
    · exact ⟨hcons.1, Nat.lt_succ_of_lt hcons.2.1, hcons.2.2⟩

theorem Sound.produce (hc : Counts ix n idx) (h : Sound ix n idx st)
    (hstep : st.produce ix = some st') : Sound ix n idx st' := by
  unfold QueueThreads.produce at hstep
  split at hstep
  next => cases hstep
  next item hpc =>
    cases hstep
    refine ⟨h.held, h.head, h.tail, ?_, h.consumer⟩
    have hlen := h.length_le
    simp only [ProducerKnows]
    split_ifs
    · exact ⟨_, le_rfl, hlen.2, h.head⟩
    · exact h.tail
  next item index hpc =>
    obtain ⟨htail, hroom⟩ := h.room hc hpc
    split_ifs at hstep with hfull
    · cases hstep
      exact ⟨h.held, h.head, h.tail, trivial, h.consumer⟩
    · cases hstep
      exact ⟨h.held, h.head, h.tail, ⟨htail, hroom hfull⟩, h.consumer⟩
  next item tail hpc =>
    cases hstep
    exact h.write hc hpc
  next item tail hpc =>
    cases hstep
    exact h.storeTail hc hpc

/-- The first item has been taken. -/
theorem Sound.storeHead (hc : Counts ix n idx) (h : Sound ix n idx st) {item : α} {head : ℕ}
    (hpc : st.consumer = .storing item head) :
    Sound ix n idx { st with
      head := ix.next head
      consumer := .outside (some item)
      popped := st.popped ++ [item] } := by
  have hk := h.consumer
  simp only [ConsumerKnows, hpc] at hk
  obtain ⟨rfl, hlt, hitem⟩ := hk
  have hlen : (st.popped ++ [item]).length = st.popped.length + 1 := by simp
  refine ⟨?_, ?_, h.tail, ?_, trivial⟩
  · obtain ⟨rest, hrest, hslots⟩ := h.held
    cases rest with
    | nil =>
      rw [List.append_nil] at hrest
      rw [hrest] at hlt
      exact absurd hlt (lt_irrefl _)
    | cons a rest =>
      obtain ⟨ha, hslots'⟩ := hslots.pop
      obtain rfl : a = item := ha.symm.trans hitem
      exact ⟨rest, by simp only [hrest, List.append_assoc, List.singleton_append],
        by simpa only [hlen] using hslots'⟩
  · rw [hc.next]
    simp only [hlen]
  · have hp := h.producer
    unfold ProducerKnows at hp ⊢
    simp only [hlen]
    split at hp
    · trivial
    · trivial
    · split_ifs at hp ⊢
      · obtain ⟨k, hk, hroom, hidx⟩ := hp
        exact ⟨k, Nat.le_succ_of_le hk, hroom, hidx⟩
      · exact hp
    · exact ⟨hp.1, by omega⟩
    · exact ⟨hp.1, by omega, hp.2.2⟩

theorem Sound.consume (hc : Counts ix n idx) (h : Sound ix n idx st)
    (hstep : st.consume ix = some st') : Sound ix n idx st' := by
  unfold QueueThreads.consume at hstep
  have hk := h.consumer
  unfold ConsumerKnows at hk
  split at hstep
  next => cases hstep
  next hpc =>
    cases hstep
    exact ⟨h.held, h.head, h.tail, h.producer, h.head⟩
  next head hpc =>
    simp only [hpc] at hk
    split_ifs at hstep with hempty
    · cases hstep
      exact ⟨h.held, h.head, h.tail, h.producer, trivial⟩
    · cases hstep
      refine ⟨h.held, h.head, h.tail, h.producer, hk, ?_⟩
      have hne : st.popped.length ≠ st.accepted.length := fun heq =>
        hempty (by rw [hk, h.tail, heq])
      exact lt_of_le_of_ne h.length_le.1 hne
  next head hpc =>
    simp only [hpc] at hk
    cases hstep
    refine ⟨h.held, h.head, h.tail, h.producer, hk.1, hk.2, ?_⟩
    rw [hk.1, hc.slot]
  next item head hpc =>
    cases hstep
    exact h.storeHead hc hpc

theorem Sound.step (hc : Counts ix n idx) (h : Sound ix n idx st) {a : Action α}
    (hstep : st.step ix a = some st') : Sound ix n idx st' := by
  cases a with
  | callPush item => exact h.callPush hstep
  | produce => exact h.produce hc hstep
  | callPop => exact h.callPop hstep
  | consume => exact h.consume hc hstep

/-- Every run from the start is sound. -/
theorem sound_run (hc : Counts ix n idx) (array : ℕ → α) {actions : List (Action α)}
    (hrun : (init array).run ix actions = some st) : Sound ix n idx st :=
  Runs.Steps.invariant (P := fun _ _ => True) (fun h _ hstep => h.step hc hstep)
    (sound_init hc array) (.of_forall_mem fun _ _ _ => trivial) (Runs.steps_iff_some.2 hrun)

/-- What a sound state says of the accesses to slots. -/
structure SlotsSafe (ix : Indexing) (st : QueueThreads α) : Prop where
  write : ∀ item tail, st.producer = .writing item tail → ix.slot tail < ix.size
  read : ∀ head, st.consumer = .reading head → ix.slot head < ix.size
  disjoint : ∀ item tail head, st.producer = .writing item tail →
    st.consumer = .reading head → ix.slot tail ≠ ix.slot head

theorem Sound.slotsSafe (hc : Counts ix n idx) (h : Sound ix n idx st) : SlotsSafe ix st := by
  have hlt : ∀ k, ix.slot (idx k) < ix.size := fun k => by
    rw [hc.slot]
    exact (Nat.mod_lt _ hc.pos).trans_le hc.le_size
  have hp : ∀ {item tail}, st.producer = .writing item tail → tail = idx st.accepted.length ∧
      st.accepted.length + 1 < st.popped.length + n := fun hpc => by
    have hk := h.producer
    simpa only [ProducerKnows, hpc] using hk
  have hr : ∀ {head}, st.consumer = .reading head → head = idx st.popped.length ∧
      st.popped.length < st.accepted.length := fun hpc => by
    have hk := h.consumer
    simpa only [ConsumerKnows, hpc] using hk
  refine ⟨fun item tail hpc => (hp hpc).1 ▸ hlt _, fun head hpc => (hr hpc).1 ▸ hlt _,
    fun item tail head hpc hpc' => ?_⟩
  obtain ⟨rfl, hroom⟩ := hp hpc
  obtain ⟨rfl, hitem⟩ := hr hpc'
  rw [hc.slot, hc.slot]
  exact Ring.mod_ne_of_lt hitem (by omega)

/-! ## What waits in the queue -/

/-- The items that have been accepted and not popped. -/
def waiting (st : QueueThreads α) : List α :=
  st.accepted.drop st.popped.length

theorem Sound.accepted_eq (h : Sound ix n idx st) : st.accepted = st.popped ++ st.waiting := by
  obtain ⟨rest, hrest, -⟩ := h.held
  rw [waiting, hrest, List.drop_left]

theorem waiting_eq {popped rest : List α} (h : st.accepted = popped ++ rest)
    (hpopped : st.popped = popped) : st.waiting = rest := by
  rw [waiting, h, hpopped, List.drop_left]

/-- What a step of `pop` does : it goes on, or finds nothing, or takes the first item. -/
theorem Sound.consume_cases (hc : Counts ix n idx) (h : Sound ix n idx st)
    (hstep : st.consume ix = some st') :
    st'.consumer.result? = none ∧ st'.waiting = st.waiting ∧ st'.popped = st.popped ∨
      st'.consumer.result? = some none ∧ st.waiting = [] ∧ st'.waiting = st.waiting ∧
        st'.popped = st.popped ∨
      ∃ item, st'.consumer.result? = some (some item) ∧ st.waiting = item :: st'.waiting ∧
        st'.popped = st.popped ++ [item] := by
  have h' := h.consume hc hstep
  have hk := h.consumer
  unfold QueueThreads.consume at hstep
  unfold ConsumerKnows at hk
  split at hstep
  next => cases hstep
  next =>
    cases hstep
    exact Or.inl ⟨rfl, rfl, rfl⟩
  next head hpc =>
    simp only [hpc] at hk
    split_ifs at hstep with hempty
    · cases hstep
      have hle := h.length_le
      rw [hk, h.tail] at hempty
      have hlen := hc.inj hle.1 hle.2 hempty
      exact Or.inr (Or.inl ⟨rfl, List.drop_eq_nil_of_le hlen.ge, rfl, rfl⟩)
    · cases hstep
      exact Or.inl ⟨rfl, rfl, rfl⟩
  next =>
    cases hstep
    exact Or.inl ⟨rfl, rfl, rfl⟩
  next item head hpc =>
    cases hstep
    refine Or.inr (Or.inr ⟨item, rfl, waiting_eq ?_ rfl, rfl⟩)
    have hacc := h'.accepted_eq
    simpa only [List.append_assoc, List.singleton_append] using hacc

theorem callPop_eq (hstep : st.callPop = some st') : st' = { st with consumer := .called } := by
  unfold QueueThreads.callPop at hstep
  split at hstep
  · exact (Option.some.inj hstep).symm
  · cases hstep

theorem callPush_eq {item : α} (hstep : st.callPush item = some st') :
    st' = { st with producer := .called item } := by
  unfold QueueThreads.callPush at hstep
  split at hstep
  · exact (Option.some.inj hstep).symm
  · cases hstep

/-- `push` has loaded a head with which the queue is not full. -/
def Roomy (n : ℕ) (idx : ℕ → ℕ) (st : QueueThreads α) : Prop :=
  ∀ item index, st.producer = .loaded item index →
    ∃ k ≤ st.accepted.length, index = idx k ∧ st.accepted.length + 1 < k + n

theorem roomy_called {item : α} (h : st.producer = .called item) : Roomy n idx st := by
  intro item' index hloaded
  rw [h] at hloaded
  cases hloaded

theorem Roomy.of_same (h : Roomy n idx st) (hproducer : st'.producer = st.producer)
    (haccepted : st'.accepted = st.accepted) : Roomy n idx st' := by
  unfold Roomy
  rw [hproducer, haccepted]
  exact h

/-- The queue never holds so much that a `push` would find it full : a step of `push` goes on, or
the queue has accepted the item. -/
theorem Sound.produce_roomy (hc : Counts ix n idx) (hfirst : ix.headFirst = true)
    (h : Sound ix n idx st) (hroomy : Roomy n idx st) {item : α}
    (hitem : st.producer.item = some item)
    (hlen : st.waiting.length + 1 < n) (hstep : st.produce ix = some st') :
    Roomy n idx st' ∧ st'.popped = st.popped ∧ st'.consumer = st.consumer ∧
      (st'.producer.result? = none ∧ st'.producer.item = some item ∧
        st'.accepted = st.accepted ∨
        st'.producer = .outside true ∧ st'.accepted = st.accepted ++ [item]) := by
  unfold QueueThreads.produce at hstep
  split at hstep
  next => cases hstep
  next item' hpc =>
    cases hstep
    rw [hpc] at hitem
    refine ⟨fun _ index hloaded => ?_, rfl, rfl, Or.inl ⟨rfl, hitem, rfl⟩⟩
    cases hloaded
    rw [hfirst]
    refine ⟨st.popped.length, h.length_le.1, h.head, ?_⟩
    rw [h.accepted_eq, List.length_append]
    omega
  next item' index hpc =>
    rw [hpc] at hitem
    obtain ⟨k, hk, rfl, hroom⟩ := hroomy item' index hpc
    have hne : ix.slot (ix.next (st.tailSeen ix (idx k))) ≠ ix.slot (st.headSeen ix (idx k)) := by
      rw [tailSeen, headSeen, hfirst, if_pos rfl, if_pos rfl, h.tail, hc.next, hc.slot, hc.slot]
      exact Ring.mod_ne_of_lt (by omega) hroom
    rw [if_neg hne] at hstep
    cases hstep
    exact ⟨fun _ _ hloaded => (by cases hloaded), rfl, rfl, Or.inl ⟨rfl, hitem, rfl⟩⟩
  next item' tail hpc =>
    cases hstep
    rw [hpc] at hitem
    exact ⟨fun _ _ hloaded => (by cases hloaded), rfl, rfl, Or.inl ⟨rfl, hitem, rfl⟩⟩
  next item' tail hpc =>
    cases hstep
    rw [hpc] at hitem
    cases hitem
    exact ⟨fun _ _ hloaded => (by cases hloaded), rfl, rfl, Or.inr ⟨rfl, rfl⟩⟩

end QueueThreads

namespace RingBuffer

open QueueThreads

variable {α : Type} {capacity : ℕ}

/-- The indices of a `RingBuffer` are slots, advanced by `advance`. -/
def indexing (capacity : ℕ) : Indexing :=
  ⟨capacity, advance capacity, fun i => i, false⟩

theorem counts (hcap : 1 ≤ capacity) :
    Counts (indexing capacity) (slotCount capacity) fun k => k % slotCount capacity where
  pos := slotCount_pos capacity
  le_size := slotCount_le hcap
  zero := Nat.zero_mod _
  next k := (advance_eq (Nat.mod_lt _ (slotCount_pos capacity))).trans (Nat.mod_add_mod ..)
  slot _ := rfl
  inj := by
    intro j k hle hlt heq
    rcases Nat.eq_or_lt_of_le hle with rfl | hjk
    · rfl
    · exact absurd heq.symm (Ring.mod_ne_of_lt hjk hlt)

/-- Whatever the capacity and the order of the steps, what has been popped is the first part
of what has been accepted, the rest of it fits into the buffer, and the accesses to slots are
in range and never meet. -/
theorem run_isQueue (hcap : 1 ≤ capacity) (buffer : ℕ → α) {actions : List (Action α)}
    {st : QueueThreads α} (hrun : (init buffer).run (indexing capacity) actions = some st) :
    (∃ rest, st.accepted = st.popped ++ rest ∧ rest.length ≤ capacity - 1) ∧
      SlotsSafe (indexing capacity) st := by
  have h := sound_run (counts hcap) buffer hrun
  refine ⟨?_, h.slotsSafe (counts hcap)⟩
  obtain ⟨rest, hrest, hslots⟩ := h.held
  have hlt : rest.length < slotCount capacity := hslots.lt
  have hle := slotCount_le hcap
  exact ⟨rest, hrest, by omega⟩

/-- Two calls of `push`, the second of which finds the two slots of capacity 6 full, while a
call of `pop` is on its way. -/
theorem run_isQueue_six : ∃ st : QueueThreads ℕ,
    (init fun _ => 0).run (indexing 6) [.callPush 7, .produce, .callPop, .produce, .consume,
      .produce,
      .produce, .consume, .callPush 8, .consume, .produce, .produce, .consume] = some st ∧
    st.accepted = [7] ∧ (∃ rest, st.accepted = st.popped ++ rest ∧ rest.length ≤ 5) ∧
      SlotsSafe (indexing 6) st := by
  have hview : ((init fun _ => 0).run (indexing 6) [.callPush 7, .produce, .callPop, .produce,
      .consume, .produce, .produce, .consume, .callPush 8, .consume, .produce, .produce,
      .consume]).map (fun st => (st.accepted, st.popped)) = some ([7], [7]) := by decide +kernel
  obtain ⟨st, hrun, hst⟩ := Option.map_eq_some_iff.1 hview
  obtain ⟨hacc, -⟩ := Prod.mk.inj hst
  exact ⟨st, hrun, hacc, run_isQueue (by decide) _ hrun⟩

end RingBuffer

namespace SpscQueue

open QueueThreads

variable {n : ℕ}

/-- The counters of an `spsc_queue` are 64-bit, and masked when they are used. -/
def indexing (n : ℕ) : Indexing :=
  ⟨n, fun i => add64 i 1, fun i => i % n, true⟩

theorem counts (hdvd : n ∣ 2 ^ 64) : Counts (indexing n) n fun k => k % 2 ^ 64 where
  pos := Nat.pos_of_dvd_of_pos hdvd (by decide)
  le_size := le_rfl
  zero := Nat.zero_mod _
  next k := Nat.mod_add_mod k (2 ^ 64) 1
  slot k := Nat.mod_mod_of_dvd k hdvd
  inj := by
    intro j k hle hlt heq
    have hn := Nat.le_of_dvd (by decide) hdvd
    rcases Nat.eq_or_lt_of_le hle with rfl | hjk
    · rfl
    · exact absurd heq.symm (Ring.mod_ne_of_lt hjk (by omega))

end SpscQueue

end TradeX
