import TradeX.Order
import TradeX.Library.Ring
import TradeX.Library.Runs

/-!
# The trade ring

`trade_ring_buffer` with each call one step : a ring of slots in shared memory, one producer
and any number of consumers, each with a cursor of its own. `add_trade` stores twice the
producer's sequence number plus two in the slot; `any_new_trade` compares the slot with the
consumer's sequence number, which is not doubled. A slot keeps its value until it is written
again, so the answer of a consumer that has read everything depends on how far it is into
the run (`AnswersRight`).

After `k` calls of `add_trade` and `c` of `get_trade` the cursors are functions of `k` and
`c` (`cursorAt`) and the ring is `Ring.after`; this is `ConsistentFrom`, and every step keeps
it. `Consistent` is the case of a ring that was zero at the start.

`lagged_out` subtracts the number that is not doubled from the doubled one, and so answers
that the consumer is more than a lap behind also when it is only far into the run
(`laggedOut_exact_iff`).
-/

namespace TradeX

/-- `RING_SIZE`. -/
def ringSize : ℕ := 2 ^ 20

theorem ringSize_pos : 0 < ringSize :=
  Nat.two_pow_pos 20

/-- `MOD`. -/
def seqMod : ℕ := 2 ^ 60

/-- `ItemNode` : a trade and the sequence number of its slot. -/
structure ItemNode where
  currTrade : Trade
  seq : ℕ

/-- The two counters of a `trade_ring_buffer` instance. -/
structure Cursor where
  index : ℕ
  nextExpectedSeq : ℕ

namespace TradeRing

/-- `ring_buffer`; only the slots below `ringSize` exist. -/
abbrev Slots := ℕ → ItemNode

/-- A trade of zero bytes. -/
def zeroTrade : Trade :=
  ⟨0, 0, 0, 0, 0, 0, 0⟩

/-- Shared memory as it is created. -/
def zeroed : Slots :=
  fun _ => ⟨zeroTrade, 0⟩

/-- The constructor. -/
def start : Cursor :=
  ⟨0, 1⟩

/-- `seq |= (seq == 0)`. -/
def skipZero (seq : ℕ) : ℕ :=
  if seq = 0 then 1 else seq

/-- `update_index_and_seq`; the masks are remainders. -/
def updateIndexAndSeq (c : Cursor) : Cursor :=
  ⟨(c.index + 1) % ringSize, skipZero ((c.nextExpectedSeq + 1) % seqMod)⟩

/-- `add_trade`, as a whole. -/
def addTrade (ring : Slots) (c : Cursor) (trade : Trade) : Slots × Cursor :=
  let nextSeq := 2 * c.nextExpectedSeq
  (Function.update ring c.index ⟨trade, nextSeq + 2⟩, updateIndexAndSeq c)

/-- `any_new_trade`. -/
def anyNewTrade (ring : Slots) (c : Cursor) : Bool :=
  c.nextExpectedSeq ≤ (ring c.index).seq

/-- `lagged_out`; the stored number is below `2 ^ 61`, and the sum does not wrap. -/
def laggedOut (ring : Slots) (c : Cursor) : Bool :=
  ringSize ≤ ((ring c.index).seq + seqMod - c.nextExpectedSeq) % seqMod

/-- `get_trade` while nobody writes : an even sequence number is read twice and the loop
ends, an odd one is read for ever. -/
def getTrade (ring : Slots) (c : Cursor) : Except Fault (Trade × Cursor) :=
  if (ring c.index).seq % 2 = 1 then .error .nonTermination
  else .ok ((ring c.index).currTrade, updateIndexAndSeq c)

/-! ## Calls in any order -/

/-- A call of the producer, or of consumer `i`. -/
inductive Op
  | add (trade : Trade)
  | anyNew (i : ℕ)
  | get (i : ℕ)
  deriving DecidableEq

/-- The ring with its producer and consumers, what was published, what each consumer
received, and the answer each has got to `any_new_trade` since its last `get_trade`. -/
structure State where
  ring : Slots
  producer : Cursor
  consumer : ℕ → Cursor
  published : List Trade
  received : ℕ → List Trade
  answer : ℕ → Option Bool

/-- An empty ring, with the producer and the consumers at its start. -/
def State.init : State :=
  ⟨zeroed, start, fun _ => start, [], fun _ => [], fun _ => none⟩

/-- A call on the ring. -/
def State.step (st : State) : Op → Except Fault State
  | .add trade =>
    let (ring, producer) := addTrade st.ring st.producer trade
    .ok { st with ring := ring, producer := producer, published := st.published ++ [trade] }
  | .anyNew i =>
    .ok { st with
      answer := Function.update st.answer i (some (anyNewTrade st.ring (st.consumer i))) }
  | .get i => do
    let (trade, cursor) ← getTrade st.ring (st.consumer i)
    .ok { st with
      consumer := Function.update st.consumer i cursor
      received := Function.update st.received i (st.received i ++ [trade])
      answer := Function.update st.answer i none }

/-- Calls on the ring, in any order. -/
def State.run (st : State) (ops : List Op) : Except Fault State :=
  ops.foldlM State.step st

/-- The trades added by the calls. -/
def adds (ops : List Op) : List Trade :=
  ops.filterMap fun
    | .add trade => some trade
    | _ => none

/-- The number of `get_trade` calls of consumer `i`. -/
def gets (i : ℕ) (ops : List Op) : ℕ :=
  ops.count (.get i)

/-! ## The state as a function of the calls -/

/-- The cursor after `k` updates. Sequence numbers go round `1`, ..., `seqMod - 1`. -/
def cursorAt (k : ℕ) : Cursor :=
  ⟨k % ringSize, 1 + k % (seqMod - 1)⟩

theorem updateIndexAndSeq_cursorAt (k : ℕ) : updateIndexAndSeq (cursorAt k) =
    cursorAt (k + 1) := by
  simp only [updateIndexAndSeq, cursorAt, ringSize, seqMod, Cursor.mk.injEq]
  refine ⟨by omega, ?_⟩
  unfold skipZero
  split_ifs <;> omega

/-- What write `j` puts into its slot. -/
def slotOf (published : List Trade) (j : ℕ) : ItemNode :=
  ⟨published.getD j zeroTrade, 2 * (1 + j % (seqMod - 1)) + 2⟩

/-- The ring and the cursors are those of the calls made so far, on a ring that held `ring₀`
at the start. -/
structure ConsistentFrom (ring₀ : Slots) (st : State) : Prop where
  ring : st.ring = Ring.after ringSize ring₀ (slotOf st.published) st.published.length
  producer : st.producer = cursorAt st.published.length
  consumer : ∀ i, st.consumer i = cursorAt (st.received i).length

/-- The ring and the cursors are those of the calls made so far. -/
structure Consistent (st : State) : Prop where
  ring : st.ring = Ring.after ringSize zeroed (slotOf st.published) st.published.length
  producer : st.producer = cursorAt st.published.length
  consumer : ∀ i, st.consumer i = cursorAt (st.received i).length

theorem consistent_iff {st : State} : Consistent st ↔ ConsistentFrom zeroed st :=
  ⟨fun h => ⟨h.ring, h.producer, h.consumer⟩, fun h => ⟨h.ring, h.producer, h.consumer⟩⟩

theorem consistent_init : Consistent State.init :=
  ⟨rfl, rfl, fun _ => rfl⟩

theorem slotOf_append (l : List Trade) (trade : Trade) {j : ℕ} (hj : j < l.length) :
    slotOf (l ++ [trade]) j = slotOf l j := by
  simp [slotOf, List.getElem?_append_left hj]

/-- No write in progress. -/
def EvenSlots (ring : Slots) : Prop :=
  ∀ i, (ring i).seq % 2 = 0

theorem evenSlots_zeroed : EvenSlots zeroed :=
  fun _ => rfl

theorem EvenSlots.after {ring : Slots} (h : EvenSlots ring) (f : List Trade) (k : ℕ) :
    EvenSlots (Ring.after ringSize ring (slotOf f) k) := by
  induction k with
  | zero => exact h
  | succ k ih =>
    intro i
    rw [Ring.after_succ]
    rcases eq_or_ne i (k % ringSize) with rfl | hi
    · rw [Function.update_self]
      simp only [slotOf]
      omega
    · rw [Function.update_of_ne hi]
      exact ih i

namespace ConsistentFrom

variable {ring₀ : Slots} {st : State}

theorem add (h : ConsistentFrom ring₀ st) (trade : Trade) :
    ∃ st', st.step (.add trade) = .ok st' ∧ ConsistentFrom ring₀ st' ∧
      st'.published = st.published ++ [trade] ∧ st'.received = st.received ∧
      st'.answer = st.answer := by
  refine ⟨_, rfl, ⟨?_, ?_, h.consumer⟩, rfl, rfl, rfl⟩
  · simp only [h.ring, h.producer, List.length_append, List.length_singleton,
      Ring.after_succ]
    rw [Ring.after_congr fun j hj => (slotOf_append st.published trade hj).symm]
    congr 1
    simp [slotOf, cursorAt]
  · simp only [h.producer, updateIndexAndSeq_cursorAt, List.length_append, List.length_singleton]

theorem anyNew (h : ConsistentFrom ring₀ st) (i : ℕ) :
    ∃ st', st.step (.anyNew i) = .ok st' ∧ ConsistentFrom ring₀ st' ∧
      st'.published = st.published ∧ st'.received = st.received ∧
      st'.answer = Function.update st.answer i (some (anyNewTrade st.ring (st.consumer i))) :=
  ⟨_, rfl, ⟨h.ring, h.producer, h.consumer⟩, rfl, rfl, rfl⟩

/-- The slot a consumer with `c` calls of `get_trade` looks at. -/
theorem get (heven : EvenSlots ring₀) (h : ConsistentFrom ring₀ st) (i : ℕ) :
    ∃ st', st.step (.get i) = .ok st' ∧ ConsistentFrom ring₀ st' ∧
      st'.published = st.published ∧
      st'.received = Function.update st.received i
        (st.received i ++ [(st.ring ((st.received i).length % ringSize)).currTrade]) ∧
      st'.answer = Function.update st.answer i none := by
  have hidx : (st.consumer i).index = (st.received i).length % ringSize := by rw [h.consumer]; rfl
  have hslot : (st.ring (st.consumer i).index).seq % 2 = 0 := by
    rw [h.ring]
    exact heven.after _ _ _
  have hget : getTrade st.ring (st.consumer i) =
      .ok ((st.ring ((st.received i).length % ringSize)).currTrade,
        updateIndexAndSeq (st.consumer i)) := by
    rw [getTrade, if_neg (by omega), hidx]
  refine ⟨{ st with
      consumer := Function.update st.consumer i (updateIndexAndSeq (st.consumer i))
      received := Function.update st.received i
        (st.received i ++ [(st.ring ((st.received i).length % ringSize)).currTrade])
      answer := Function.update st.answer i none }, by rw [State.step, hget]; rfl,
    ⟨h.ring, h.producer, fun j => ?_⟩, rfl, rfl, rfl⟩
  rcases eq_or_ne j i with rfl | hj
  · simp only [Function.update_self, h.consumer, updateIndexAndSeq_cursorAt, List.length_append,
      List.length_singleton]
  · simp only [Function.update_of_ne hj, h.consumer]

theorem anyNewTrade_eq (h : ConsistentFrom ring₀ st) (i : ℕ) :
    anyNewTrade st.ring (st.consumer i) = true ↔
      1 + (st.received i).length % (seqMod - 1) ≤
        (st.ring ((st.received i).length % ringSize)).seq := by
  rw [anyNewTrade, h.consumer]
  exact decide_eq_true_iff

end ConsistentFrom

namespace Consistent

variable {st : State}

theorem add (h : Consistent st) (trade : Trade) :
    ∃ st', st.step (.add trade) = .ok st' ∧ Consistent st' ∧
      st'.published = st.published ++ [trade] ∧ st'.received = st.received ∧
      st'.answer = st.answer := by
  simpa only [consistent_iff] using (consistent_iff.1 h).add trade

theorem anyNew (h : Consistent st) (i : ℕ) :
    ∃ st', st.step (.anyNew i) = .ok st' ∧ Consistent st' ∧
      st'.published = st.published ∧ st'.received = st.received ∧
      st'.answer = Function.update st.answer i (some (anyNewTrade st.ring (st.consumer i))) := by
  simpa only [consistent_iff] using (consistent_iff.1 h).anyNew i

theorem get (h : Consistent st) (i : ℕ) :
    ∃ st', st.step (.get i) = .ok st' ∧ Consistent st' ∧ st'.published = st.published ∧
      st'.received = Function.update st.received i
        (st.received i ++ [(st.ring ((st.received i).length % ringSize)).currTrade]) ∧
      st'.answer = Function.update st.answer i none := by
  simpa only [consistent_iff] using (consistent_iff.1 h).get evenSlots_zeroed i

/-- One call, whatever it is. -/
theorem step (h : Consistent st) (op : Op) :
    ∃ st', st.step op = .ok st' ∧ Consistent st' ∧
      st'.published = st.published ++ adds [op] ∧
      ∀ i, (st'.received i).length = (st.received i).length + gets i [op] := by
  cases op with
  | add trade =>
    obtain ⟨st', hst, hcons, hpub, hrec, -⟩ := h.add trade
    exact ⟨st', hst, hcons, hpub, fun i => by rw [hrec]; rfl⟩
  | anyNew j =>
    obtain ⟨st', hst, hcons, hpub, hrec, -⟩ := h.anyNew j
    exact ⟨st', hst, hcons, by rw [hpub]; exact (List.append_nil _).symm, fun i => by
      rw [hrec]; rfl⟩
  | get j =>
    obtain ⟨st', hst, hcons, hpub, hrec, -⟩ := h.get j
    refine ⟨st', hst, hcons, by rw [hpub]; exact (List.append_nil _).symm, fun i => ?_⟩
    rw [hrec]
    rcases eq_or_ne i j with rfl | hij
    · simp [gets]
    · simp [gets, Function.update_of_ne hij, hij.symm]

/-- Any sequence of calls. -/
theorem run : ∀ (ops : List Op) {st : State}, Consistent st →
    ∃ st', st.run ops = .ok st' ∧ Consistent st' ∧
      st'.published = st.published ++ adds ops ∧
      ∀ i, (st'.received i).length = (st.received i).length + gets i ops
  | [], st, h => ⟨st, rfl, h, (List.append_nil _).symm, fun _ => rfl⟩
  | op :: ops, st, h => by
    obtain ⟨st₁, hst₁, h₁, hpub₁, hrec₁⟩ := h.step op
    obtain ⟨st', hrun, h', hpub, hrec⟩ := run ops h₁
    refine ⟨st', ?_, h', ?_, fun i => ?_⟩
    · rw [State.run, List.foldlM_cons, hst₁]
      exact hrun
    · rw [hpub, hpub₁, List.append_assoc]
      congr 1
      exact List.filterMap_append.symm
    · rw [hrec, hrec₁, Nat.add_assoc]
      congr 1
      exact List.count_append.symm

end Consistent

/-! ## What `any_new_trade` answers -/

/-- The answer is right for a consumer that has made `c` calls of `get_trade` when `k` trades
have been added : there is a new trade, or the slot it looks at has never been written, or
the number stored there, whole laps ago, is below the one it expects. -/
def AnswersRight (k c : ℕ) : Prop :=
  let back := ringSize * ((c - k) / ringSize + 1)
  c < k ∨ c < back ∨ 2 * ((c - back) % (seqMod - 1)) + 3 < c % (seqMod - 1)

/-- A consumer that has read everything gets the right answer in the first lap, and then
only for less than one more lap of each round of the sequence numbers. -/
theorem answersRight_self (c : ℕ) : AnswersRight c c ↔
    c < ringSize ∨ ringSize ≤ c % (seqMod - 1) ∧ c % (seqMod - 1) < 2 * ringSize - 3 := by
  simp only [AnswersRight, ringSize, seqMod, Nat.sub_self]
  omega

theorem Consistent.anyNewTrade_iff {st : State} (h : Consistent st) {i : ℕ}
    (hlag : st.published.length ≤ (st.received i).length + ringSize) :
    (anyNewTrade st.ring (st.consumer i) = true ↔
        (st.received i).length < st.published.length) ↔
      AnswersRight st.published.length (st.received i).length := by
  set k := st.published.length with hk
  set c := (st.received i).length
  have hany : anyNewTrade st.ring (st.consumer i) = true ↔
      1 + c % (seqMod - 1) ≤ (st.ring (c % ringSize)).seq := (consistent_iff.1 h).anyNewTrade_eq i
  rw [hany, h.ring, ← hk, AnswersRight]
  rcases Nat.lt_or_ge c k with hc | hc
  · rw [Ring.after_latest hc hlag]
    simp only [slotOf]
    omega
  · rw [Ring.after_pending (by decide) hc]
    split_ifs with hle
    · simp only [slotOf]
      omega
    · simp only [zeroed]
      omega

/-! ## What `lagged_out` answers -/

/-- The slot of a consumer that is behind holds its next trade or one whole laps later. -/
theorem after_behind (ring₀ : Slots) (f : ℕ → ItemNode) {k c : ℕ} (hc : c < k) :
    ∃ j, c ≤ j ∧ j < k ∧ (j = c ↔ k ≤ c + ringSize) ∧
      (j ≠ c → c + ringSize ≤ j) ∧
      Ring.after ringSize ring₀ f k (c % ringSize) = f j := by
  -- the last `j` below `k` in the same slot
  refine ⟨c + ringSize * ((k - 1 - c) / ringSize), Nat.le_add_right _ _, ?_, ?_, ?_, ?_⟩
  · have := Nat.mul_div_le (k - 1 - c) ringSize
    omega
  · simp only [ringSize]
    omega
  · simp only [ringSize]
    omega
  · have hslot : (c + ringSize * ((k - 1 - c) / ringSize)) % ringSize = c % ringSize :=
      Nat.add_mul_mod_self_left ..
    rw [← hslot]
    apply Ring.after_latest
    · have := Nat.mul_div_le (k - 1 - c) ringSize
      omega
    · have := Nat.lt_mul_div_succ (k - 1 - c) ringSize_pos
      rw [Nat.mul_succ] at this
      omega

theorem Consistent.laggedOut_iff {st : State} (h : Consistent st) {i : ℕ}
    (hk : st.published.length < 2 ^ 59) (hc : (st.received i).length < st.published.length) :
    (laggedOut st.ring (st.consumer i) = true ↔
        ringSize < st.published.length - (st.received i).length ∨
          ringSize ≤ (st.received i).length + 3) ∧
      (ringSize < st.published.length - (st.received i).length ↔
        (st.ring (st.consumer i).index).seq ≠
          (slotOf st.published (st.received i).length).seq) := by
  obtain ⟨j, hcj, hjk, heq, hne, hslot⟩ :=
    after_behind zeroed (slotOf st.published) hc
  have hidx : (st.consumer i).index = (st.received i).length % ringSize := by rw [h.consumer]; rfl
  have hnext : (st.consumer i).nextExpectedSeq = 1 + (st.received i).length % (seqMod - 1) := by
    rw [h.consumer]
    rfl
  have hseq : ∀ n < 2 ^ 59, (slotOf st.published n).seq = 2 * n + 4 := by
    intro n hn
    simp only [slotOf, seqMod]
    omega
  have hmod : (st.received i).length % (seqMod - 1) = (st.received i).length :=
    Nat.mod_eq_of_lt (by simp only [seqMod]; omega)
  -- what is stored is twice the number of its write, what is expected is not doubled
  have hdiff : (2 * j + 4 + seqMod - (1 + (st.received i).length)) % seqMod =
      2 * j + 3 - (st.received i).length := by
    simp only [seqMod]
    omega
  rw [laggedOut, decide_eq_true_iff, hidx, hnext, h.ring, hslot, hseq j (by omega),
    hseq _ (by omega), hmod, hdiff]
  constructor <;> omega

/-- In every sequence of calls that adds fewer than `2 ^ 59` trades, `lagged_out` answers
whether a consumer that has not read everything is more than a lap behind, so that its next
trade has been overwritten, exactly when the consumer has not come to the last three slots of
the first lap, or is indeed that far behind. -/
theorem laggedOut_exact_iff (ops : List Op) (hadds : (adds ops).length < 2 ^ 59) :
    ∃ st, State.init.run ops = .ok st ∧ ∀ i, gets i ops < (adds ops).length →
      ((laggedOut st.ring (st.consumer i) = true ↔ ringSize < (adds ops).length - gets i ops) ↔
        gets i ops + 3 < ringSize ∨ gets i ops + ringSize < (adds ops).length) ∧
      (ringSize < (adds ops).length - gets i ops ↔
        (st.ring (st.consumer i).index).seq ≠ (slotOf (adds ops) (gets i ops)).seq) := by
  obtain ⟨st, hrun, hcons, hpub, hrec⟩ := Consistent.run ops consistent_init
  have hk : st.published = adds ops := by simpa [State.init] using hpub
  have hc : ∀ i, (st.received i).length = gets i ops :=
    fun i => by simpa [State.init] using hrec i
  refine ⟨st, hrun, fun i hlt => ?_⟩
  rw [← hk, ← hc i] at hlt ⊢
  obtain ⟨hlag, hover⟩ := hcons.laggedOut_iff (hk ▸ hadds) hlt
  refine ⟨?_, hover⟩
  rw [hlag]
  omega

/-! ## A consumer that asks first -/

/-- A call in a run where consumer `i` reads only when it was told there is a new trade, is
never more than a lap behind, and is told the truth. -/
def Obeys (i : ℕ) (st : State) : Op → Prop
  | .add _ => st.published.length < (st.received i).length + ringSize
  | .anyNew j => j = i → AnswersRight st.published.length (st.received i).length
  | .get j => j = i → st.answer i = some true

/-- A call that returns. -/
def State.Calls (st : State) (op : Op) (st' : State) : Prop :=
  st.step op = .ok st'

theorem State.steps_iff_run {ops : List Op} {st st' : State} :
    Runs.Steps State.Calls ops st st' ↔ st.run ops = .ok st' :=
  Runs.steps_iff_ok

/-- Every call of a run from `st` obeys. -/
def ObeysFrom (i : ℕ) : State → List Op → Prop :=
  Runs.Always State.Calls (Obeys i)

/-- Consumer `i` has received the first trades, is at most a lap behind, and was told of a
new trade only if there is one. -/
structure Follows (i : ℕ) (st : State) : Prop where
  received : st.received i <+: st.published
  near : st.published.length ≤ (st.received i).length + ringSize
  answer : st.answer i = some true → (st.received i).length < st.published.length

theorem Follows.step {i : ℕ} {st : State} (hc : Consistent st) (h : Follows i st) {op : Op}
    (hop : Obeys i st op) : ∃ st', st.Calls op st' ∧ Consistent st' ∧ Follows i st' := by
  cases op with
  | add trade =>
    obtain ⟨st', hst, hcons, hpub, hrec, hans⟩ := hc.add trade
    have hlt : st.published.length < (st.received i).length + ringSize := hop
    refine ⟨st', hst, hcons, ⟨?_, ?_, ?_⟩⟩
    · rw [hpub, hrec]
      exact h.received.trans (List.prefix_append _ _)
    · rw [hpub, hrec, List.length_append]
      exact hlt
    · rw [hpub, hrec, hans, List.length_append]
      exact fun ha => Nat.lt_add_right _ (h.answer ha)
  | anyNew j =>
    obtain ⟨st', hst, hcons, hpub, hrec, hans⟩ := hc.anyNew j
    refine ⟨st', hst, hcons,
      ⟨by rw [hpub, hrec]; exact h.received, by rw [hpub, hrec]; exact h.near, ?_⟩⟩
    rw [hpub, hrec, hans]
    rcases eq_or_ne i j with rfl | hij
    · rw [Function.update_self, Option.some_inj]
      exact ((hc.anyNewTrade_iff h.near).2 (hop rfl)).1
    · rw [Function.update_of_ne hij]
      exact h.answer
  | get j =>
    obtain ⟨st', hst, hcons, hpub, hrec, hans⟩ := hc.get j
    refine ⟨st', hst, hcons, ?_⟩
    rcases eq_or_ne i j with rfl | hij
    · have hlt := h.answer (hop rfl)
      have htrade : (st.ring ((st.received i).length % ringSize)).currTrade =
          st.published[(st.received i).length] := by
        rw [hc.ring, Ring.after_latest hlt h.near]
        simp [slotOf, List.getElem?_eq_getElem hlt]
      have hi : st'.received i = st.received i ++ [st.published[(st.received i).length]] := by
        rw [hrec, Function.update_self, htrade]
      refine ⟨?_, ?_, ?_⟩
      · rw [hpub, hi, List.prefix_iff_eq_take, List.length_append, List.length_singleton,
          List.take_add_one, ← List.prefix_iff_eq_take.1 h.received,
          List.getElem?_eq_getElem hlt]
        rfl
      · rw [hpub, hi, List.length_append]
        have := h.near
        omega
      · rw [hans, Function.update_self]
        exact fun ha => by simp at ha
    · refine ⟨?_, ?_, ?_⟩
      · rw [hpub, hrec, Function.update_of_ne hij]
        exact h.received
      · rw [hpub, hrec, Function.update_of_ne hij]
        exact h.near
      · rw [hpub, hrec, hans, Function.update_of_ne hij, Function.update_of_ne hij]
        exact h.answer

/-- In every sequence of calls, the answer a consumer that is at most a lap behind gets is
right exactly when `AnswersRight` holds of the number of trades added and read. A consumer
that reads only when told of a new trade, and gets right answers, receives the trades that
were added, in order, and if it is told there is no new one it has received them all. -/
theorem delivery_iff_answersRight (ops : List Op) :
    ∃ st, State.init.run ops = .ok st ∧
      (∀ i, (adds ops).length ≤ gets i ops + ringSize →
        ((anyNewTrade st.ring (st.consumer i) = true ↔ gets i ops < (adds ops).length) ↔
          AnswersRight (adds ops).length (gets i ops))) ∧
      ∀ i, ObeysFrom i State.init ops → st.received i <+: adds ops ∧
        (AnswersRight (adds ops).length (gets i ops) →
          anyNewTrade st.ring (st.consumer i) = false → st.received i = adds ops) := by
  obtain ⟨st, hrun, hcons, hpub, hrec⟩ := Consistent.run ops consistent_init
  have hk : st.published = adds ops := by simpa [State.init] using hpub
  have hc : ∀ i, (st.received i).length = gets i ops :=
    fun i => by simpa [State.init] using hrec i
  refine ⟨st, hrun, fun i hlag => ?_, fun i hops => ?_⟩
  · rw [← hk, ← hc i] at hlag ⊢
    exact hcons.anyNewTrade_iff hlag
  · have hinit : Follows i State.init :=
      ⟨List.prefix_refl _, Nat.zero_le _, fun ha => by simp [State.init] at ha⟩
    obtain ⟨st', hrun', -, h⟩ :=
      Runs.Always.exists_steps (I := fun st => Consistent st ∧ Follows i st)
      (fun h hop => h.2.step h.1 hop) ⟨consistent_init, hinit⟩ hops
    obtain rfl : st = st' := Except.ok.inj (hrun.symm.trans (State.steps_iff_run.1 hrun'))
    rw [← hk, ← hc i]
    refine ⟨h.received, fun hright hno => h.received.eq_of_length_le ?_⟩
    have hiff := (hcons.anyNewTrade_iff h.near).2 hright
    rw [hno] at hiff
    simpa using hiff

/-- One trade is added, asked for and read, `n` times. -/
def oneByOne (n : ℕ) : List Op :=
  (List.range n).flatMap fun j => [.add { zeroTrade with tradeId := j + 1 }, .anyNew 0, .get 0]

theorem oneByOne_succ (n : ℕ) : oneByOne (n + 1) =
    oneByOne n ++ [.add { zeroTrade with tradeId := n + 1 }, .anyNew 0, .get 0] := by
  rw [oneByOne, List.range_succ, List.flatMap_append, List.flatMap_singleton]
  rfl

theorem adds_append (l l' : List Op) : adds (l ++ l') = adds l ++ adds l' :=
  List.filterMap_append

theorem gets_append (i : ℕ) (l l' : List Op) : gets i (l ++ l') = gets i l + gets i l' :=
  List.count_append

theorem length_adds_oneByOne (n : ℕ) : (adds (oneByOne n)).length = n := by
  induction n with
  | zero => rfl
  | succ n ih =>
    rw [oneByOne_succ, adds_append, List.length_append, ih]
    rfl

theorem gets_oneByOne (n : ℕ) : gets 0 (oneByOne n) = n := by
  induction n with
  | zero => rfl
  | succ n ih =>
    rw [oneByOne_succ, gets_append, ih]
    rfl

/-- The consumer is never more than one trade behind. -/
theorem lag_oneByOne (n : ℕ) {pre : List Op} (h : pre <+: oneByOne n) :
    (adds pre).length ≤ gets 0 pre + 1 := by
  induction n with
  | zero =>
    obtain rfl : pre = [] := List.prefix_nil.1 h
    exact Nat.zero_le _
  | succ n ih =>
    rw [oneByOne_succ] at h
    rcases List.prefix_or_prefix_of_prefix h (List.prefix_append _ _) with hn | ⟨l, rfl⟩
    · exact ih hn
    · have hl := (List.prefix_append_right_inj _).1 h
      have hle : (adds l).length ≤ 1 := (hl.sublist.filterMap _).length_le
      rw [adds_append, gets_append, List.length_append, length_adds_oneByOne, gets_oneByOne]
      omega

/-- After all but three trades of the second lap, all read, the consumer is told that there
is a new one. -/
theorem anyNewTrade_oneByOne :
    let ops := oneByOne (2 * ringSize - 3)
    (∀ pre, pre <+: ops → (adds pre).length ≤ gets 0 pre + ringSize) ∧
    (adds ops).length = gets 0 ops ∧
    ∃ st, State.init.run ops = .ok st ∧ anyNewTrade st.ring (st.consumer 0) = true := by
  intro ops
  have hadds : (adds ops).length = 2 * ringSize - 3 := length_adds_oneByOne _
  have hgets : gets 0 ops = 2 * ringSize - 3 := gets_oneByOne _
  obtain ⟨st, hrun, hcons, hpub, hrec⟩ := Consistent.run ops consistent_init
  have hk : st.published.length = 2 * ringSize - 3 := by
    rw [hpub, List.length_append, hadds]
    exact Nat.zero_add _
  have hc : (st.received 0).length = 2 * ringSize - 3 := by
    rw [hrec, hgets]
    exact Nat.zero_add _
  refine ⟨fun pre hpre => (lag_oneByOne _ hpre).trans (Nat.add_le_add_left (by decide) _),
    hadds.trans hgets.symm, st, hrun, ?_⟩
  have hiff := hcons.anyNewTrade_iff (i := 0) (by omega)
  rw [hk, hc, answersRight_self] at hiff
  by_contra hno
  have hright := hiff.1 ⟨fun h => absurd h hno, fun h => absurd h (lt_irrefl _)⟩
  revert hright
  simp only [ringSize, seqMod]
  omega

/-- One trade behind, at the last three slots of the first lap, the consumer is told that it
has lagged out. -/
theorem laggedOut_one_behind :
    let ops := oneByOne (ringSize - 3) ++ [.add zeroTrade]
    (adds ops).length = ringSize - 2 ∧ gets 0 ops = ringSize - 3 ∧
    ∃ st, State.init.run ops = .ok st ∧ laggedOut st.ring (st.consumer 0) = true := by
  intro ops
  have hadds : (adds ops).length = ringSize - 2 := by
    rw [adds_append, List.length_append, length_adds_oneByOne]
    rfl
  have hgets : gets 0 ops = ringSize - 3 := by
    rw [gets_append, gets_oneByOne]
    rfl
  obtain ⟨st, hrun, hcons, hpub, hrec⟩ := Consistent.run ops consistent_init
  have hk : st.published.length = ringSize - 2 := by
    rw [hpub, List.length_append, hadds]
    exact Nat.zero_add _
  have hc : (st.received 0).length = ringSize - 3 := by
    rw [hrec, hgets]
    exact Nat.zero_add _
  have hlag := (hcons.laggedOut_iff (i := 0) (by rw [hk]; decide) (by rw [hk, hc]; decide)).1
  refine ⟨hadds, hgets, st, hrun, hlag.2 (Or.inr ?_)⟩
  rw [hc]
  decide

/-- Some trades are read, and then others added. -/
def behind (read added : ℕ) : List Op :=
  oneByOne read ++ List.replicate added (.add zeroTrade)

theorem length_adds_behind (read added : ℕ) : (adds (behind read added)).length =
    read + added := by
  have hadds : adds (List.replicate added (.add zeroTrade)) = List.replicate added zeroTrade :=
    List.filterMap_replicate_of_some rfl
  rw [behind, adds_append, List.length_append, length_adds_oneByOne, hadds, List.length_replicate]

theorem gets_behind (read added : ℕ) : gets 0 (behind read added) = read := by
  have hgets : gets 0 (List.replicate added (.add zeroTrade)) = 0 :=
    List.count_eq_zero.2 fun hmem => by cases List.eq_of_mem_replicate hmem
  rw [behind, gets_append, gets_oneByOne, hgets, Nat.add_zero]

/-- A lap behind the consumer is not told that it has lagged out, and more than a lap behind it
is, also when it has read a lap before. -/
theorem laggedOut_laps :
    (∃ st, State.init.run (behind 3 ringSize) = .ok st ∧
      laggedOut st.ring (st.consumer 0) = false) ∧
    ∃ st, State.init.run (behind ringSize (ringSize + 1)) = .ok st ∧
      laggedOut st.ring (st.consumer 0) = true := by
  constructor
  · have hadds := length_adds_behind 3 ringSize
    have hgets := gets_behind 3 ringSize
    obtain ⟨st, hrun, h⟩ := laggedOut_exact_iff (behind 3 ringSize) (by rw [hadds]; decide)
    have hlag := (h 0 (by rw [hadds, hgets]; decide)).1.2 (Or.inl (by rw [hgets]; decide))
    refine ⟨st, hrun, Bool.eq_false_iff.2 fun htrue => ?_⟩
    have hfar := hlag.1 htrue
    rw [hadds, hgets] at hfar
    omega
  · have hadds := length_adds_behind ringSize (ringSize + 1)
    have hgets := gets_behind ringSize (ringSize + 1)
    obtain ⟨st, hrun, h⟩ := laggedOut_exact_iff (behind ringSize (ringSize + 1))
      (by rw [hadds]; decide)
    have hlag := (h 0 (by rw [hadds, hgets]; decide)).1.2 (Or.inr (by rw [hadds, hgets]; decide))
    refine ⟨st, hrun, hlag.2 ?_⟩
    rw [hadds, hgets]
    omega

/-- A consumer that reads the trades one by one asks first, is never a lap behind and is told the
truth before each of them. -/
theorem obeys_oneByOne : ∀ n, ObeysFrom 0 State.init (oneByOne n)
  | 0 => .nil _
  | n + 1 => by
    rw [oneByOne_succ]
    refine (obeys_oneByOne n).append fun st hst => ?_
    obtain ⟨st', hrun, hcons, hpub, hrec⟩ := Consistent.run (oneByOne n) consistent_init
    obtain rfl : st = st' := Except.ok.inj ((State.steps_iff_run.1 hst).symm.trans hrun)
    have hk : st.published.length = n := by
      rw [hpub, List.length_append, length_adds_oneByOne]
      exact Nat.zero_add _
    have hc : (st.received 0).length = n := by
      rw [hrec, gets_oneByOne]
      exact Nat.zero_add _
    obtain ⟨st₁, hst₁, hcons₁, hpub₁, hrec₁, -⟩ :=
      hcons.add { zeroTrade with tradeId := n + 1 }
    have hk₁ : st₁.published.length = n + 1 := by
      rw [hpub₁, List.length_append, hk, List.length_singleton]
    have hc₁ : (st₁.received 0).length = n := by rw [hrec₁, hc]
    have hright : AnswersRight st₁.published.length (st₁.received 0).length :=
      Or.inl (by omega)
    refine .cons ?_ fun st' h₁ => ?_
    · change st.published.length < (st.received 0).length + ringSize
      rw [hk, hc]
      exact Nat.lt_add_of_pos_right ringSize_pos
    obtain rfl := Except.ok.inj (hst₁.symm.trans h₁)
    refine .cons (fun _ => hright) fun st₂ h₂ => .cons (fun _ => ?_) fun _ _ => .nil _
    obtain rfl := Except.ok.inj h₂
    have hpos := ringSize_pos
    have hnew : anyNewTrade st₁.ring (st₁.consumer 0) = true :=
      ((hcons₁.anyNewTrade_iff (i := 0) (by omega)).2 hright).2 (by omega)
    simp only [Function.update_self, hnew]

/-- A consumer that has read all trades of the first lap and two of the next has received them, and
is told that there is no new one. -/
theorem delivery_next_lap :
    let ops := oneByOne (ringSize + 2)
    ObeysFrom 0 State.init ops ∧ ∃ st, State.init.run ops = .ok st ∧
      anyNewTrade st.ring (st.consumer 0) = false ∧ st.received 0 = adds ops := by
  intro ops
  have hadds : (adds ops).length = ringSize + 2 := length_adds_oneByOne _
  have hgets : gets 0 ops = ringSize + 2 := gets_oneByOne _
  have hright : AnswersRight (adds ops).length (gets 0 ops) := by
    rw [hadds, hgets, answersRight_self]
    exact Or.inr (by decide)
  obtain ⟨st, hrun, hanswer, h⟩ := delivery_iff_answersRight ops
  have hno : anyNewTrade st.ring (st.consumer 0) = false := by
    refine Bool.eq_false_iff.2 fun htrue => ?_
    have hlt := ((hanswer 0 (by omega)).2 hright).1 htrue
    omega
  exact ⟨obeys_oneByOne _, st, hrun, hno, (h 0 (obeys_oneByOne _)).2 hright hno⟩

end TradeRing

end TradeX
