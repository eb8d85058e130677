import TradeX.TradeRing
import Mathlib.Tactic.IntervalCases

/-!
# The trade ring under concurrency

`add_trade` and `get_trade` step by step, one producer and one consumer, in any order : the
stores and loads of a slot's sequence number and the copies of the fields of its trade are
steps of their own. The loop of `get_trade` goes back to its condition on an odd sequence
number, and then compares it with whatever `seq2` holds : the number an earlier pass loaded,
or nothing yet. `torn_read` is a run in which that ends the loop. A run in which it does not,
in which `get_trade` is not called on a slot that was never written, and in which the
sequence numbers do not come round again while a trade is copied, returns only trades that
were added (`returned_mem_added`).
-/

namespace TradeX

namespace TradeRing

/-! ## Fields -/

/-- The fields `memcpy` copies. -/
def field : ℕ → Trade → ℕ
  | 0, t => t.tradeId
  | 1, t => t.timestampNs
  | 2, t => t.price
  | 3, t => t.buyOrderId
  | 4, t => t.sellOrderId
  | 5, t => t.symbolId
  | _, t => t.quantity

/-- The fields of a trade, each of them copied in a step of its own. -/
def fieldCount : ℕ := 7

/-- `dst` after field `j` of `src` was copied to it. -/
def copyField : ℕ → Trade → Trade → Trade
  | 0, src, dst => { dst with tradeId := src.tradeId }
  | 1, src, dst => { dst with timestampNs := src.timestampNs }
  | 2, src, dst => { dst with price := src.price }
  | 3, src, dst => { dst with buyOrderId := src.buyOrderId }
  | 4, src, dst => { dst with sellOrderId := src.sellOrderId }
  | 5, src, dst => { dst with symbolId := src.symbolId }
  | _, src, dst => { dst with quantity := src.quantity }

/-- The first `j` fields agree. -/
def AgreeBelow (j : ℕ) (t t' : Trade) : Prop :=
  ∀ i < j, field i t = field i t'

theorem agreeBelow_zero (t t' : Trade) : AgreeBelow 0 t t' :=
  fun _ hi => absurd hi (Nat.not_lt_zero _)

theorem AgreeBelow.eq {t t' : Trade} (h : AgreeBelow fieldCount t t') : t = t' := by
  obtain ⟨a, b, c, d, e, f, g⟩ := t
  obtain ⟨a', b', c', d', e', f', g'⟩ := t'
  have h0 : a = a' := h 0 (by decide)
  have h1 : b = b' := h 1 (by decide)
  have h2 : c = c' := h 2 (by decide)
  have h3 : d = d' := h 3 (by decide)
  have h4 : e = e' := h 4 (by decide)
  have h5 : f = f' := h 5 (by decide)
  have h6 : g = g' := h 6 (by decide)
  rw [h0, h1, h2, h3, h4, h5, h6]

/-- Copying the next field extends the agreement. -/
theorem AgreeBelow.copyField {j : ℕ} {t t' : Trade} (h : AgreeBelow j t t')
    (hj : j < fieldCount) : AgreeBelow (j + 1) t (TradeRing.copyField j t t') := by
  intro i hi
  have hi' : i < fieldCount := by omega
  rcases Nat.lt_succ_iff_lt_or_eq.1 hi with hlt | rfl
  · have := h i hlt
    unfold fieldCount at hj hi'
    interval_cases j <;> interval_cases i <;> exact this
  · unfold fieldCount at hj
    interval_cases i <;> rfl

/-! ## Steps -/

/-- Where `add_trade` is : not called, with the first `j` fields of its argument copied, or
with the even sequence number stored. -/
inductive WriterPc
  | idle
  | copying (trade : Trade) (j : ℕ)
  | stored
  deriving DecidableEq

/-- The producer and where it is in `add_trade`. -/
structure Writer where
  cursor : Cursor
  pc : WriterPc

/-- Where `get_trade` is : not called, before the load of `seq1`, with the first `j` fields
copied, before the condition of the loop, or after the loop. -/
inductive ReaderPc
  | idle
  | load
  | copying (j : ℕ)
  | check
  | advance
  deriving DecidableEq

/-- The consumer with the locals of `get_trade`. `since` is the number of calls of
`add_trade` when `seq1` was loaded. -/
structure Reader where
  cursor : Cursor
  pc : ReaderPc
  seq1 : ℕ
  seq2 : ℕ
  buffer : Trade
  since : ℕ

/-- The ring, the two threads, the arguments of the calls of `add_trade` so far and what the
calls of `get_trade` have returned. -/
structure Threads where
  ring : Slots
  writer : Writer
  reader : Reader
  added : List Trade
  returned : List Trade

/-- An empty ring, and no call. -/
def Threads.init : Threads where
  ring := zeroed
  writer := ⟨start, .idle⟩
  reader := ⟨start, .idle, 0, 0, zeroTrade, 0⟩
  added := []
  returned := []

/-- A call of `add_trade`, its next step, a call of `get_trade`, whose `seq2` and result hold
whatever is on the stack, and its next step. -/
inductive Action
  | add (trade : Trade)
  | write
  | get (seq2 : ℕ) (buffer : Trade)
  | read
  deriving DecidableEq

/-- A slot changes. -/
def modifySlot (ring : Slots) (i : ℕ) (f : ItemNode → ItemNode) : Slots :=
  Function.update ring i (f (ring i))

/-- The call of `add_trade` : the odd sequence number is stored. -/
def Threads.add (st : Threads) (trade : Trade) : Option Threads :=
  match st.writer.pc with
  | .idle => some { st with
      ring := modifySlot st.ring st.writer.cursor.index fun n =>
        { n with seq := 2 * st.writer.cursor.nextExpectedSeq + 1 }
      writer := { st.writer with pc := .copying trade 0 }
      added := st.added ++ [trade] }
  | _ => none

/-- The next step of `add_trade`. -/
def Threads.write (st : Threads) : Option Threads :=
  match st.writer.pc with
  | .idle => none
  | .copying trade j =>
    if j < fieldCount then
      some { st with
        ring := modifySlot st.ring st.writer.cursor.index fun n =>
          { n with currTrade := copyField j trade n.currTrade }
        writer := { st.writer with pc := .copying trade (j + 1) } }
    else
      some { st with
        ring := modifySlot st.ring st.writer.cursor.index fun n =>
          { n with seq := 2 * st.writer.cursor.nextExpectedSeq + 2 }
        writer := { st.writer with pc := .stored } }
  | .stored => some { st with writer := ⟨updateIndexAndSeq st.writer.cursor, .idle⟩ }

/-- `get_trade` is called. Its local variables hold anything. -/
def Threads.get (st : Threads) (seq2 : ℕ) (buffer : Trade) : Option Threads :=
  match st.reader.pc with
  | .idle => some { st with
      reader := { st.reader with pc := .load, seq2 := seq2, buffer := buffer } }
  | _ => none

/-- The next step of `get_trade`. An odd `seq1` goes to the condition of the loop. -/
def Threads.read (st : Threads) : Option Threads :=
  let node := st.ring st.reader.cursor.index
  match st.reader.pc with
  | .idle => none
  | .load => some { st with reader := { st.reader with
      pc := if node.seq % 2 = 1 then .check else .copying 0
      seq1 := node.seq
      since := st.added.length } }
  | .copying j =>
    if j < fieldCount then
      some { st with reader := { st.reader with
        pc := .copying (j + 1)
        buffer := copyField j node.currTrade st.reader.buffer } }
    else some { st with reader := { st.reader with pc := .check, seq2 := node.seq } }
  | .check => some { st with reader := { st.reader with
      pc := if st.reader.seq1 = st.reader.seq2 then .advance else .load } }
  | .advance => some { st with
      reader := { st.reader with pc := .idle, cursor := updateIndexAndSeq st.reader.cursor }
      returned := st.returned ++ [st.reader.buffer] }

/-- A step of the producer or of the consumer, if it can be taken. -/
def Threads.step (st : Threads) : Action → Option Threads
  | .add trade => st.add trade
  | .write => st.write
  | .get seq2 buffer => st.get seq2 buffer
  | .read => st.read

/-- Steps in any order. -/
def Threads.run (st : Threads) (actions : List Action) : Option Threads :=
  actions.foldlM Threads.step st

/-! ## The producer -/

/-- The ring and the producer when `k` calls of `add_trade` have returned. During a call the
slot of write `k` has an odd sequence number and the fields copied so far. -/
def WriterAt (st : Threads) (k : ℕ) : Prop :=
  st.writer.cursor = cursorAt k ∧
  match st.writer.pc with
  | .idle => st.added.length = k ∧ st.ring = Ring.after ringSize zeroed (slotOf st.added) k
  | .copying trade j => st.added.length = k + 1 ∧ st.added[k]? = some trade ∧
      j ≤ fieldCount ∧ ∃ payload, AgreeBelow j trade payload ∧
        st.ring = Function.update (Ring.after ringSize zeroed (slotOf st.added) k) (k % ringSize)
          ⟨payload, 2 * (1 + k % (seqMod - 1)) + 1⟩
  | .stored => st.added.length = k + 1 ∧
      st.ring = Ring.after ringSize zeroed (slotOf st.added) (k + 1)

theorem writerAt_init : WriterAt Threads.init 0 :=
  ⟨rfl, rfl, rfl⟩

theorem modifySlot_update (ring : Slots) (i : ℕ) (n : ItemNode) (f : ItemNode → ItemNode) :
    modifySlot (Function.update ring i n) i f = Function.update ring i (f n) := by
  rw [modifySlot, Function.update_self, Function.update_idem]

theorem WriterAt.add {st st' : Threads} {k : ℕ} {trade : Trade} (h : WriterAt st k)
    (hst : st.add trade = some st') : WriterAt st' k := by
  obtain ⟨hcur, hpc⟩ := h
  unfold Threads.add at hst
  split at hst
  next hidle =>
    simp only [hidle] at hpc
    obtain ⟨hlen, hring⟩ := hpc
    obtain rfl := Option.some.inj hst
    refine ⟨hcur, ?_, ?_, Nat.zero_le _, (st.ring (k % ringSize)).currTrade, agreeBelow_zero _ _,
      ?_⟩
    · rw [List.length_append, hlen, List.length_singleton]
    · rw [← hlen, List.getElem?_concat_length]
    · have hcongr : Ring.after ringSize zeroed (slotOf st.added) k =
          Ring.after ringSize zeroed (slotOf (st.added ++ [trade])) k :=
        Ring.after_congr fun j hj => (slotOf_append st.added trade (hlen ▸ hj)).symm
      simp only [modifySlot, hcur, cursorAt]
      rw [hring, hcongr]
  next => simp at hst

theorem WriterAt.write {st st' : Threads} {k : ℕ} (h : WriterAt st k)
    (hst : st.write = some st') : WriterAt st' k ∨ WriterAt st' (k + 1) := by
  obtain ⟨hcur, hpc⟩ := h
  unfold Threads.write at hst
  split at hst
  next => simp at hst
  next trade j hcopy =>
    simp only [hcopy] at hpc
    obtain ⟨hlen, hget, hj, payload, hagree, hring⟩ := hpc
    have hidx : st.writer.cursor.index = k % ringSize := by rw [hcur]; rfl
    have hseq : st.writer.cursor.nextExpectedSeq = 1 + k % (seqMod - 1) := by rw [hcur]; rfl
    split_ifs at hst with hlt
    · obtain rfl := Option.some.inj hst
      refine Or.inl ⟨hcur, hlen, hget, hlt, copyField j trade payload, hagree.copyField hlt, ?_⟩
      simp only [hidx, hring, modifySlot_update]
    · obtain rfl := Option.some.inj hst
      obtain rfl : trade = payload := (show j = fieldCount by omega) ▸ hagree |>.eq
      refine Or.inl ⟨hcur, hlen, ?_⟩
      simp only [hidx, hseq, hring, modifySlot_update, Ring.after_succ]
      simp [slotOf, hget]
  next hstored =>
    simp only [hstored] at hpc
    obtain rfl := Option.some.inj hst
    exact Or.inr ⟨by simp only [hcur, updateIndexAndSeq_cursorAt], hpc⟩

/-- A slot with an even sequence number, other than 0, holds the trade of its latest write. -/
theorem WriterAt.settled {st : Threads} {k : ℕ} (h : WriterAt st k) {i : ℕ} (hi : i < ringSize)
    (heven : (st.ring i).seq % 2 = 0) (hne : (st.ring i).seq ≠ 0) :
    ∃ m < st.added.length, m % ringSize = i ∧ st.added.length ≤ m + ringSize ∧
      st.ring i = slotOf st.added m := by
  have hafter : ∀ {k' : ℕ}, st.added.length = k' →
      st.ring i = Ring.after ringSize zeroed (slotOf st.added) k' i →
      ∃ m < st.added.length, m % ringSize = i ∧ st.added.length ≤ m + ringSize ∧
        st.ring i = slotOf st.added m := by
    rintro k' rfl hring
    rw [hring] at hne ⊢
    refine (Ring.after_cases hi _).resolve_left fun h0 => hne ?_
    rw [h0]
    rfl
  obtain ⟨-, hpc⟩ := h
  split at hpc
  · exact hafter hpc.1 (by rw [hpc.2])
  · obtain ⟨hlen, -, -, payload, -, hring⟩ := hpc
    rcases eq_or_ne i (k % ringSize) with rfl | hik
    · rw [hring, Function.update_self] at heven
      simp only at heven
      omega
    · refine hafter hlen ?_
      rw [Ring.after_succ, Function.update_of_ne hik, hring, Function.update_of_ne hik]
  · exact hafter hpc.1 (by rw [hpc.2])

/-! ## A slot while it is read -/

/-- The slot of write `m` has not been written since. -/
def Intact (st : Threads) (m : ℕ) : Prop :=
  st.ring (m % ringSize) = slotOf st.added m

/-- The slot of write `m` shows the sequence number of a later write. -/
def Overwritten (st : Threads) (m : ℕ) : Prop :=
  ∃ m' < st.added.length, m < m' ∧ m' % ringSize = m % ringSize ∧
    ((st.ring (m % ringSize)).seq = 2 * (1 + m' % (seqMod - 1)) + 1 ∨
      (st.ring (m % ringSize)).seq = 2 * (1 + m' % (seqMod - 1)) + 2)

/-- What a step of the producer does when `k` calls have returned : only the slot of write
`k` can change, and then it was not intact and shows the number of write `k`. -/
structure Touches (k : ℕ) (st st' : Threads) : Prop where
  reader : st'.reader = st.reader
  returned : st'.returned = st.returned
  added : ∃ l, st'.added = st.added ++ l
  length_le : st.added.length ≤ k + 1
  other : ∀ i, i ≠ k % ringSize → st'.ring i = st.ring i
  slot : st'.ring (k % ringSize) = st.ring (k % ringSize) ∨
    k < st'.added.length ∧
      (st.added.length = k ∨ (st.ring (k % ringSize)).seq % 2 = 1) ∧
      ((st'.ring (k % ringSize)).seq = 2 * (1 + k % (seqMod - 1)) + 1 ∨
        (st'.ring (k % ringSize)).seq = 2 * (1 + k % (seqMod - 1)) + 2)

section Writer

variable {st st' : Threads} {k m : ℕ}

theorem modifySlot_self (ring : Slots) (i : ℕ) (f : ItemNode → ItemNode) :
    modifySlot ring i f i = f (ring i) :=
  Function.update_self _ _ _

theorem modifySlot_of_ne {i j : ℕ} (h : j ≠ i) (ring : Slots) (f : ItemNode → ItemNode) :
    modifySlot ring i f j = ring j :=
  Function.update_of_ne h _ _

theorem WriterAt.touches_add {trade : Trade} (h : WriterAt st k)
    (hst : st.add trade = some st') : Touches k st st' := by
  obtain ⟨hcur, hpc⟩ := h
  have hidx : st.writer.cursor.index = k % ringSize := by rw [hcur]; rfl
  have hother : ∀ i, i ≠ k % ringSize → ∀ f,
      modifySlot st.ring st.writer.cursor.index f i = st.ring i :=
    fun i hi f => modifySlot_of_ne (by rw [hidx]; exact hi) _ _
  unfold Threads.add at hst
  split at hst
  next hidle =>
    simp only [hidle] at hpc
    obtain rfl := Option.some.inj hst
    refine ⟨rfl, rfl, ⟨[trade], rfl⟩, by omega, fun i hi => by simp only [hother i hi],
      Or.inr ⟨?_, Or.inl hpc.1, Or.inl ?_⟩⟩
    · simp only [List.length_append, hpc.1, List.length_singleton, Nat.lt_succ_self]
    · simp only [modifySlot_self, hcur, cursorAt]
  next => simp at hst

theorem WriterAt.touches_write (h : WriterAt st k) (hst : st.write = some st') :
    Touches k st st' := by
  obtain ⟨hcur, hpc⟩ := h
  have hidx : st.writer.cursor.index = k % ringSize := by rw [hcur]; rfl
  have hother : ∀ i, i ≠ k % ringSize → ∀ f,
      modifySlot st.ring st.writer.cursor.index f i = st.ring i :=
    fun i hi f => modifySlot_of_ne (by rw [hidx]; exact hi) _ _
  unfold Threads.write at hst
  split at hst
  next => simp at hst
  next trade j hcopy =>
    simp only [hcopy] at hpc
    obtain ⟨hlen, -, -, payload, -, hring⟩ := hpc
    have hseq : (st.ring (k % ringSize)).seq = 2 * (1 + k % (seqMod - 1)) + 1 := by
      rw [hring, Function.update_self]
    have hodd : (st.ring (k % ringSize)).seq % 2 = 1 := by omega
    split_ifs at hst
    · obtain rfl := Option.some.inj hst
      refine ⟨rfl, rfl, ⟨[], (List.append_nil _).symm⟩, by omega,
        fun i hi => by simp only [hother i hi],
        Or.inr ⟨by simp only; omega, Or.inr hodd, Or.inl ?_⟩⟩
      simp only [hidx, modifySlot_self, hseq]
    · obtain rfl := Option.some.inj hst
      refine ⟨rfl, rfl, ⟨[], (List.append_nil _).symm⟩, by omega,
        fun i hi => by simp only [hother i hi],
        Or.inr ⟨by simp only; omega, Or.inr hodd, Or.inr ?_⟩⟩
      simp only [modifySlot_self, hcur, cursorAt]
  next hstored =>
    simp only [hstored] at hpc
    obtain rfl := Option.some.inj hst
    exact ⟨rfl, rfl, ⟨[], (List.append_nil _).symm⟩, by omega, fun _ _ => rfl, Or.inl rfl⟩

namespace Touches

theorem length_le_length (h : Touches k st st') : st.added.length ≤ st'.added.length := by
  obtain ⟨l, hl⟩ := h.added
  rw [hl, List.length_append]
  exact Nat.le_add_right _ _

theorem slotOf_eq (h : Touches k st st') (hm : m < st.added.length) :
    slotOf st'.added m = slotOf st.added m := by
  obtain ⟨l, hl⟩ := h.added
  simp [slotOf, hl, List.getElem?_append_left hm]

/-- The slot of write `m` stays intact, or is overwritten. -/
theorem intact (h : Touches k st st') (hm : m < st.added.length) (hi : Intact st m) :
    Intact st' m ∨ Overwritten st' m := by
  have hkeep : st'.ring (m % ringSize) = st.ring (m % ringSize) → Intact st' m := fun heq => by
    rw [Intact, heq, h.slotOf_eq hm]
    exact hi
  rcases eq_or_ne (m % ringSize) (k % ringSize) with hmk | hmk
  · rw [hmk] at hkeep
    rcases h.slot with hsame | ⟨hk, hnot, hseq⟩
    · exact Or.inl (hkeep hsame)
    · rcases hnot with hlen | hodd
      · exact Or.inr ⟨k, hk, by omega, hmk.symm, hmk ▸ hseq⟩
      · rw [← hmk, show st.ring (m % ringSize) = slotOf st.added m from hi] at hodd
        simp only [slotOf] at hodd
        omega
  · exact Or.inl (hkeep (h.other _ hmk))

/-- An overwritten slot stays overwritten. -/
theorem overwritten (h : Touches k st st') (ho : Overwritten st m) : Overwritten st' m := by
  obtain ⟨m', hm', hlt, hmod, hseq⟩ := ho
  have hkeep : st'.ring (m % ringSize) = st.ring (m % ringSize) → Overwritten st' m := fun heq =>
    ⟨m', by have := h.length_le_length; omega, hlt, hmod, heq ▸ hseq⟩
  rcases eq_or_ne (m % ringSize) (k % ringSize) with hmk | hmk
  · rw [hmk] at hkeep
    rcases h.slot with hsame | ⟨hk, -, hseq'⟩
    · exact hkeep hsame
    · have := h.length_le
      exact ⟨k, hk, by omega, hmk.symm, hmk ▸ hseq'⟩
  · exact hkeep (h.other _ hmk)

end Touches

end Writer

/-- Sequence numbers come round only after `ringSize * (seqMod - 1)` writes, so within
that an overwritten slot shows another number. -/
theorem Overwritten.seq_ne {st : Threads} {m since : ℕ} (h : Overwritten st m)
    (hsince : since ≤ m + ringSize)
    (hfew : st.added.length - since ≤ ringSize * (seqMod - 2)) :
    (st.ring (m % ringSize)).seq ≠ 2 * (1 + m % (seqMod - 1)) + 2 := by
  obtain ⟨m', hm', hlt, hmod, hseq⟩ := h
  intro heq
  have hround : m' % (seqMod - 1) = m % (seqMod - 1) := by omega
  have hdvd₁ : ringSize ∣ m' - m := (Nat.modEq_iff_dvd' hlt.le).1 hmod.symm
  have hdvd₂ : seqMod - 1 ∣ m' - m := (Nat.modEq_iff_dvd' hlt.le).1 hround.symm
  have hcop : Nat.Coprime ringSize (seqMod - 1) := by decide
  have hle := Nat.le_of_dvd (by omega) (hcop.mul_dvd_of_dvd_of_dvd hdvd₁ hdvd₂)
  simp only [ringSize, seqMod] at hle hfew hsince
  omega

/-! ## The consumer -/

/-- What the consumer knows in the middle of `get_trade`. While it copies, the slot is intact
and the fields copied are those of the trade in it, or the slot is overwritten. -/
def ReaderKnows (st : Threads) : Prop :=
  match st.reader.pc with
  | .idle => True
  | .load => True
  | .copying j => j ≤ fieldCount ∧ st.reader.seq1 % 2 = 0 ∧ (st.reader.seq1 ≠ 0 →
      ∃ m < st.added.length, m % ringSize = st.reader.cursor.index ∧
        st.reader.seq1 = 2 * (1 + m % (seqMod - 1)) + 2 ∧ st.reader.since ≤ m + ringSize ∧
        (Intact st m ∧ AgreeBelow j (slotOf st.added m).currTrade st.reader.buffer ∨
          Overwritten st m))
  | .check => st.reader.seq1 % 2 = 0 → st.reader.seq1 ≠ 0 →
      st.reader.seq1 = st.reader.seq2 → st.reader.buffer ∈ st.added
  | .advance => st.reader.buffer ∈ st.added

/-- The invariant of the two threads. -/
structure Untorn (st : Threads) : Prop where
  writer : ∃ k, WriterAt st k
  index : st.reader.cursor.index < ringSize
  knows : ReaderKnows st
  returned : ∀ t ∈ st.returned, t ∈ st.added

theorem untorn_init : Untorn Threads.init :=
  ⟨⟨0, writerAt_init⟩, by decide, trivial, fun _ ht => absurd ht List.not_mem_nil⟩

/-- The loop of `get_trade` is not left with an odd `seq1`, which happens when `seq2` was
left at that number, nor with 0, on a slot that was never written; and between the loads of
`seq1` and `seq2` the sequence numbers do not come round. -/
def Careful (st : Threads) (a : Action) : Prop :=
  a = .read →
    (st.reader.pc = .check → st.reader.seq1 = st.reader.seq2 →
      st.reader.seq1 % 2 = 0 ∧ st.reader.seq1 ≠ 0) ∧
    (st.reader.pc = .copying fieldCount →
      st.added.length - st.reader.since ≤ ringSize * (seqMod - 2))

instance (st : Threads) (a : Action) : Decidable (Careful st a) :=
  inferInstanceAs (Decidable (_ → _))

theorem mem_added_of_slotOf {l : List Trade} {m : ℕ} (hm : m < l.length) :
    (slotOf l m).currTrade ∈ l := by
  simp only [slotOf, List.getD_eq_getElem?_getD, List.getElem?_eq_getElem hm, Option.getD_some]
  exact List.getElem_mem hm

/-- The producer does not disturb what the consumer knows. -/
theorem Untorn.of_touches {st st' : Threads} {k k' : ℕ} (h : Untorn st) (ht : Touches k st st')
    (hw : WriterAt st' k') : Untorn st' := by
  obtain ⟨l, hl⟩ := ht.added
  have hmem : ∀ {t}, t ∈ st.added → t ∈ st'.added :=
    fun hx => hl ▸ List.mem_append_left _ hx
  refine ⟨⟨k', hw⟩, ht.reader ▸ h.index, ?_,
    fun t hx => hmem (h.returned t (ht.returned ▸ hx))⟩
  have hknows := h.knows
  unfold ReaderKnows at hknows ⊢
  rw [ht.reader]
  split at hknows
  · trivial
  · trivial
  · obtain ⟨hj, heven, hcopy⟩ := hknows
    refine ⟨hj, heven, fun hne => ?_⟩
    obtain ⟨m, hm, hidx, hseq, hsince, hstate⟩ := hcopy hne
    refine ⟨m, lt_of_lt_of_le hm ht.length_le_length, hidx, hseq, hsince, ?_⟩
    rw [ht.slotOf_eq hm]
    rcases hstate with ⟨hint, hagree⟩ | hover
    · exact (ht.intact hm hint).imp_left fun hi => ⟨hi, hagree⟩
    · exact Or.inr (ht.overwritten hover)
  · exact fun h1 h2 h3 => hmem (hknows h1 h2 h3)
  · exact hmem hknows

/-- What the consumer knows while it copies. -/
theorem Untorn.copying {st : Threads} {j : ℕ} (h : Untorn st) (hpc : st.reader.pc = .copying j) :
    j ≤ fieldCount ∧ st.reader.seq1 % 2 = 0 ∧ (st.reader.seq1 ≠ 0 →
      ∃ m < st.added.length, m % ringSize = st.reader.cursor.index ∧
        st.reader.seq1 = 2 * (1 + m % (seqMod - 1)) + 2 ∧ st.reader.since ≤ m + ringSize ∧
        (Intact st m ∧ AgreeBelow j (slotOf st.added m).currTrade st.reader.buffer ∨
          Overwritten st m)) := by
  have hknows := h.knows
  simpa only [ReaderKnows, hpc] using hknows

/-- The load of `seq1`. An even number other than 0 is that of a whole trade. -/
theorem Untorn.knows_load {st : Threads} (h : Untorn st) :
    ReaderKnows { st with reader := { st.reader with
      pc := if (st.ring st.reader.cursor.index).seq % 2 = 1 then .check else .copying 0
      seq1 := (st.ring st.reader.cursor.index).seq
      since := st.added.length } } := by
  obtain ⟨k, hw⟩ := h.writer
  unfold ReaderKnows
  rcases Nat.mod_two_eq_zero_or_one (st.ring st.reader.cursor.index).seq with heven | hodd
  · simp only [heven, Nat.zero_ne_one, if_false]
    refine ⟨Nat.zero_le _, trivial, fun hne => ?_⟩
    obtain ⟨m, hm, hmod, hle, hslot⟩ := hw.settled h.index heven hne
    have hint : st.ring (m % ringSize) = slotOf st.added m := by
      rw [hmod, hslot]
    exact ⟨m, hm, hmod, by rw [hslot, slotOf], hle, Or.inl ⟨hint, agreeBelow_zero _ _⟩⟩
  · simp only [hodd, if_true]
    exact fun h0 => absurd h0 (by omega)

/-- The copy of a field. -/
theorem Untorn.knows_copy {st : Threads} {j : ℕ} (h : Untorn st) (hpc : st.reader.pc = .copying j)
    (hlt : j < fieldCount) :
    ReaderKnows { st with reader := { st.reader with
      pc := .copying (j + 1)
      buffer := copyField j (st.ring st.reader.cursor.index).currTrade st.reader.buffer } } := by
  obtain ⟨-, heven, hcopy⟩ := h.copying hpc
  refine ⟨hlt, heven, fun hne => ?_⟩
  obtain ⟨m, hm, hidx, hseq, hsince, hstate⟩ := hcopy hne
  refine ⟨m, hm, hidx, hseq, hsince, ?_⟩
  rcases hstate with ⟨hint, hagree⟩ | hover
  · have hslot : st.ring st.reader.cursor.index = slotOf st.added m := hidx ▸ hint
    refine Or.inl ⟨hint, ?_⟩
    simp only [hslot]
    exact hagree.copyField hlt
  · exact Or.inr hover

/-- The load of `seq2`. If it is `seq1` again, the slot has not been overwritten since. -/
theorem Untorn.knows_loadAgain {st : Threads} {j : ℕ} (h : Untorn st) (hok : Careful st .read)
    (hpc : st.reader.pc = .copying j) (hge : ¬ j < fieldCount) :
    ReaderKnows { st with reader := { st.reader with
      pc := .check, seq2 := (st.ring st.reader.cursor.index).seq } } := by
  obtain ⟨hj, -, hcopy⟩ := h.copying hpc
  obtain rfl : j = fieldCount := by omega
  intro _ hne heq
  obtain ⟨m, hm, hidx, hseq, hsince, hstate⟩ := hcopy hne
  rcases hstate with ⟨-, hagree⟩ | hover
  · exact hagree.eq ▸ mem_added_of_slotOf hm
  · refine absurd ?_ (hover.seq_ne hsince ((hok rfl).2 hpc))
    rw [hidx, ← hseq]
    exact heq.symm

/-- The condition of the loop. -/
theorem Untorn.knows_check {st : Threads} (h : Untorn st) (hok : Careful st .read)
    (hpc : st.reader.pc = .check) :
    ReaderKnows { st with reader := { st.reader with
      pc := if st.reader.seq1 = st.reader.seq2 then .advance else .load } } := by
  have hknows := h.knows
  unfold ReaderKnows at hknows ⊢
  simp only [hpc] at hknows
  rcases eq_or_ne st.reader.seq1 st.reader.seq2 with heq | hne
  · simp only [if_pos heq]
    obtain ⟨heven, hne⟩ := (hok rfl).1 hpc heq
    exact hknows heven hne heq
  · simp only [if_neg hne]

theorem Untorn.read {st st' : Threads} (h : Untorn st) (hok : Careful st .read)
    (hst : st.read = some st') : Untorn st' := by
  unfold Threads.read at hst
  split at hst
  next => cases hst
  next hpc =>
    cases hst
    exact ⟨h.writer, h.index, h.knows_load, h.returned⟩
  next j hpc =>
    split_ifs at hst with hlt
    · cases hst
      exact ⟨h.writer, h.index, h.knows_copy hpc hlt, h.returned⟩
    · cases hst
      exact ⟨h.writer, h.index, h.knows_loadAgain hok hpc hlt, h.returned⟩
  next hpc =>
    cases hst
    exact ⟨h.writer, h.index, h.knows_check hok hpc, h.returned⟩
  next hpc =>
    cases hst
    have hknows := h.knows
    simp only [ReaderKnows, hpc] at hknows
    refine ⟨h.writer, Nat.mod_lt _ (by decide), trivial, fun t ht => ?_⟩
    rcases List.mem_append.1 ht with ht | ht
    · exact h.returned t ht
    · exact List.mem_singleton.1 ht ▸ hknows

theorem Untorn.step {st st' : Threads} {a : Action} (h : Untorn st) (hok : Careful st a)
    (hst : st.step a = some st') : Untorn st' := by
  obtain ⟨k, hw⟩ := h.writer
  cases a with
  | add trade => exact h.of_touches (hw.touches_add hst) (hw.add hst)
  | write =>
    rcases hw.write hst with hw' | hw'
    · exact h.of_touches (hw.touches_write hst) hw'
    · exact h.of_touches (hw.touches_write hst) hw'
  | get seq2 buffer =>
    simp only [Threads.step, Threads.get] at hst
    split at hst
    · obtain rfl := Option.some.inj hst
      exact ⟨⟨k, hw⟩, h.index, trivial, h.returned⟩
    · simp at hst
  | read => exact h.read hok hst

/-- An action that is possible. -/
def Threads.Acts (st : Threads) (a : Action) (st' : Threads) : Prop :=
  st.step a = some st'

/-- In every interleaving whose steps are all careful, whatever `get_trade` returns is the
argument of a call of `add_trade`. -/
theorem returned_mem_added {actions : List Action} {st : Threads}
    (hrun : Threads.init.run actions = some st)
    (hok : Runs.Always Threads.Acts Careful Threads.init actions) :
    ∀ t ∈ st.returned, t ∈ st.added :=
  (Runs.Steps.invariant (R := Threads.Acts) (P := Careful) (I := Untorn)
    (fun h hok hst => h.step hok hst) untorn_init hok (Runs.steps_iff_some.2 hrun)).returned

/-- A call of `add_trade` without interruption. -/
def wholeAdd (trade : Trade) : List Action :=
  .add trade :: List.replicate 9 .write

/-- A call of `get_trade` without interruption. -/
def wholeGet : List Action :=
  .get 0 zeroTrade :: List.replicate 11 .read

/-- `get_trade` comes while `add_trade` writes its slot, and tries again; it reads the trade while
the next one is written, and then that one. -/
def overlappingReads : List Action :=
  (.add { zeroTrade with tradeId := 1 } :: List.replicate 3 .write) ++
    [.get 0 zeroTrade, .read, .read] ++ List.replicate 6 .write ++
    (.add { zeroTrade with tradeId := 2 } :: List.replicate 2 .write) ++
    List.replicate 5 .read ++ List.replicate 7 .write ++ List.replicate 6 .read ++ wholeGet

theorem returned_mem_added_overlapping : ∃ st, Threads.init.run overlappingReads = some st ∧
    st.returned = [{ zeroTrade with tradeId := 1 }, { zeroTrade with tradeId := 2 }] ∧
    ∀ t ∈ st.returned, t ∈ st.added := by
  have hrun : ∃ st, Threads.init.run overlappingReads = some st ∧
      st.returned = [{ zeroTrade with tradeId := 1 }, { zeroTrade with tradeId := 2 }] :=
    ⟨_, rfl, rfl⟩
  obtain ⟨st, hst, hret⟩ := hrun
  have hok : Runs.allowed Threads.step Careful Threads.init overlappingReads = true := by
    decide +kernel
  exact ⟨st, hst, hret, returned_mem_added hst (Runs.always_of_allowed hok)⟩

/-! ## A torn read -/

/-- Steps of `add_trade` keep the ring and the producer as they should be. -/
theorem writerAt_of_run {st st' : Threads} {k n : ℕ} {trade : Trade} (hw : WriterAt st k)
    (hrun : st.run (.add trade :: List.replicate n .write) = some st') : ∃ k',
    WriterAt st' k' := by
  refine Runs.Steps.invariant (R := Threads.Acts) (I := fun st => ∃ k, WriterAt st k)
    (P := fun _ a => a = .add trade ∨ a = .write) ?_ ⟨k, hw⟩ (.of_forall_mem ?_)
    (Runs.steps_iff_some.2 hrun)
  · rintro st a st' ⟨k, hw⟩ (rfl | rfl) hst
    · exact ⟨k, hw.add hst⟩
    · exact (hw.write hst).elim (fun h => ⟨k, h⟩) fun h => ⟨k + 1, h⟩
  · intro a ha _
    rcases List.mem_cons.1 ha with rfl | ha
    · exact Or.inl rfl
    · exact Or.inr (List.eq_of_mem_replicate ha)

/-- An uninterrupted call of `add_trade` returns. -/
theorem run_wholeAdd {st : Threads} {k : ℕ} (hw : WriterAt st k) (hidle : st.writer.pc = .idle)
    (trade : Trade) :
    ∃ st', st.run (wholeAdd trade) = some st' ∧ st'.writer.pc = .idle ∧
      st'.added = st.added ++ [trade] ∧ st'.reader = st.reader ∧ st'.returned = st.returned ∧
      ∃ k', WriterAt st' k' := by
  have hrun : ∃ st', st.run (wholeAdd trade) = some st' ∧ st'.writer.pc = .idle ∧
      st'.added = st.added ++ [trade] ∧ st'.reader = st.reader ∧
        st'.returned = st.returned := by
    obtain ⟨ring, ⟨cursor, pc⟩, reader, added, returned⟩ := st
    obtain rfl : pc = .idle := hidle
    exact ⟨_, rfl, rfl, rfl, rfl, rfl⟩
  obtain ⟨st', hst', hpc, hadded, hreader, hreturned⟩ := hrun
  exact ⟨st', hst', hpc, hadded, hreader, hreturned, writerAt_of_run hw hst'⟩

/-- Trades added one after the other, while the consumer does nothing. -/
theorem run_wholeAdds : ∀ (l : List Trade) {st : Threads} {k : ℕ}, WriterAt st k →
    st.writer.pc = .idle →
    ∃ st', st.run (l.flatMap wholeAdd) = some st' ∧ st'.writer.pc = .idle ∧
      st'.added = st.added ++ l ∧ st'.reader = st.reader ∧ st'.returned = st.returned ∧
      ∃ k', WriterAt st' k'
  | [], st, k, hw, hidle => ⟨st, rfl, hidle, (List.append_nil _).symm, rfl, rfl, k, hw⟩
  | trade :: l, st, k, hw, hidle => by
    obtain ⟨st₁, hrun₁, hidle₁, hadded₁, hreader₁, hret₁, k₁, hw₁⟩ :=
      run_wholeAdd hw hidle trade
    obtain ⟨st', hrun, hidle', hadded, hreader, hret, hw'⟩ := run_wholeAdds l hw₁ hidle₁
    refine ⟨st', ?_, hidle', by rw [hadded, hadded₁, List.append_assoc]; rfl,
      hreader.trans hreader₁, hret.trans hret₁, hw'⟩
    rw [List.flatMap_cons, Threads.run, List.foldlM_append]
    simp only [Threads.run] at hrun₁ hrun
    rw [hrun₁]
    exact hrun

/-- A trade whose quantity is its id. -/
def evenTrade (n : ℕ) : Trade :=
  { zeroTrade with tradeId := n, quantity := n }

/-- What is read when the first field was copied before `add_trade` wrote the slot. -/
def tornTrade : Trade :=
  { evenTrade (ringSize + 1) with tradeId := 1 }

/-- The consumer with one field of the first trade copied. -/
def midRead (since : ℕ) : Reader :=
  ⟨start, .copying 1, 4, 0, { zeroTrade with tradeId := 1 }, since⟩

/-- `get_trade` loads `seq1` and copies the first field. -/
theorem run_tornRead_begin {ring : Slots} (writer : Writer) (added : List Trade)
    (hslot : ring 0 = ⟨evenTrade 1, 4⟩) :
    Threads.run ⟨ring, writer, Threads.init.reader, added, []⟩ [.get 0 zeroTrade, .read,
      .read] = some ⟨ring, writer, midRead added.length, added, []⟩ := by
  simp [Threads.run, Threads.step, Threads.get, Threads.read, Threads.init, start, hslot,
    fieldCount, copyField, evenTrade, zeroTrade, midRead]

/-- `add_trade` stores an odd sequence number and copies its argument. -/
theorem run_tornRead_write {st : Threads} {k : ℕ} (hw : WriterAt st k)
    (hidle : st.writer.pc = .idle) (trade : Trade) :
    ∃ st', st.run (.add trade :: List.replicate fieldCount .write) = some st' ∧
      st'.added = st.added ++ [trade] ∧ st'.reader = st.reader ∧ st'.returned = st.returned ∧
      st'.ring (k % ringSize) = ⟨trade, 2 * (1 + k % (seqMod - 1)) + 1⟩ := by
  have hlen : st.added.length = k := by
    have hpc := hw.2
    simp only [hidle] at hpc
    exact hpc.1
  have hrun : ∃ st', st.run (.add trade :: List.replicate fieldCount .write) = some st' ∧
      st'.writer.pc = .copying trade fieldCount ∧ st'.added = st.added ++ [trade] ∧
      st'.reader = st.reader ∧ st'.returned = st.returned := by
    obtain ⟨ring, ⟨cursor, pc⟩, reader, added, returned⟩ := st
    obtain rfl : pc = .idle := hidle
    exact ⟨_, rfl, rfl, rfl, rfl, rfl⟩
  obtain ⟨st', hst', hpc, hadded, hreader, hreturned⟩ := hrun
  obtain ⟨k', -, hpc'⟩ := writerAt_of_run hw hst'
  simp only [hpc] at hpc'
  obtain ⟨hlen', -, -, payload, hagree, hring⟩ := hpc'
  obtain rfl : k' = k := by
    rw [hadded, List.length_append, hlen, List.length_singleton] at hlen'
    omega
  exact ⟨st', hst', hadded, hreader,
    hreturned, by rw [hring, Function.update_self, ← hagree.eq]⟩

theorem run_append (st : Threads) (l l' : List Action) :
    st.run (l ++ l') = (st.run l).bind fun st' => st'.run l' :=
  List.foldlM_append

/-- `get_trade` copies the other fields and loads `seq2`. -/
theorem run_tornRead_copy {ring : Slots} (writer : Writer) (added : List Trade) (since : ℕ)
    {q : ℕ} (hslot : ring 0 = ⟨evenTrade (ringSize + 1), q⟩) :
    Threads.run ⟨ring, writer, midRead since, added, []⟩ (List.replicate 7 .read) =
      some ⟨ring, writer, ⟨start, .check, 4, q, tornTrade, since⟩, added, []⟩ := by
  have hrun : Threads.run ⟨ring, writer, midRead since, added, []⟩ (List.replicate 7 .read) =
      some ⟨ring, writer, ⟨start, .check, 4, (ring 0).seq,
        { (ring 0).currTrade with tradeId := 1 }, since⟩, added, []⟩ := rfl
  rw [hrun, hslot]
  rfl

/-- It finds `seq2` changed, loads `seq1` again, finds it odd and equal to `seq2`, and
returns. -/
theorem run_tornRead_end {ring : Slots} (writer : Writer) (added : List Trade) (since : ℕ)
    {q : ℕ} (hslot : ring 0 = ⟨evenTrade (ringSize + 1), q⟩) (hodd : q % 2 = 1) :
    ∃ st, Threads.run ⟨ring, writer, midRead since, added, []⟩ (List.replicate 11 .read) =
      some st ∧ st.added = added ∧ st.returned = [tornTrade] := by
  have hne : ¬4 = q := by omega
  have hcheck : ∃ st, Threads.run ⟨ring, writer, ⟨start, .check, 4, q, tornTrade, since⟩,
      added, []⟩
      (List.replicate 4 .read) = some st ∧ st.added = added ∧ st.returned = [tornTrade] := by
    simp [Threads.run, Threads.step, Threads.read, start, hslot, hodd, hne]
  obtain ⟨st, hst, hend⟩ := hcheck
  refine ⟨st, ?_, hend⟩
  rw [show List.replicate 11 Action.read = List.replicate 7 .read ++ List.replicate 4
    .read from rfl, run_append, run_tornRead_copy writer added since hslot, Option.bind_some, hst]

/-- The three parts of a torn read. -/
def tornRead : List Action :=
  [.get 0 zeroTrade, .read, .read] ++
    (.add (evenTrade (ringSize + 1)) :: List.replicate fieldCount .write) ++
    List.replicate 11 .read

theorem run_tornRead {st : Threads} (hw : WriterAt st ringSize) (hidle : st.writer.pc = .idle)
    (hreader : st.reader = Threads.init.reader) (hreturned : st.returned = [])
    (hslot : st.ring 0 = ⟨evenTrade 1, 4⟩) :
    ∃ st', st.run tornRead = some st' ∧ st'.returned = [tornTrade] ∧
      st'.added = st.added ++ [evenTrade (ringSize + 1)] := by
  obtain ⟨ring, writer, reader, added, returned⟩ := st
  obtain rfl : reader = Threads.init.reader := hreader
  obtain rfl : returned = [] := hreturned
  have hbegin := run_tornRead_begin writer added (show ring 0 = _ from hslot)
  have hw' : WriterAt ⟨ring, writer, midRead added.length, added, []⟩ ringSize := hw
  obtain ⟨⟨ring', writer', reader', added', returned'⟩, hwrite, hadded, hreader', hreturned',
    hring⟩ :=
    run_tornRead_write hw' hidle (evenTrade (ringSize + 1))
  obtain rfl : reader' = midRead added.length := hreader'
  obtain rfl : returned' = [] := hreturned'
  obtain ⟨st', hend, hadded', hret⟩ := run_tornRead_end writer' added' added.length hring
    (by decide)
  refine ⟨st', ?_, hret, hadded'.trans hadded⟩
  rw [tornRead, run_append, run_append, hbegin, Option.bind_some, hwrite, Option.bind_some, hend]

/-- A lap of trades is added and the consumer, told that there is a new trade, calls
`get_trade`. It returns a trade that was never added. -/
theorem torn_read :
    ∃ st₁ st₂, Threads.init.run
      (((List.range ringSize).map fun j => evenTrade (j + 1)).flatMap
        wholeAdd) = some st₁ ∧
      anyNewTrade st₁.ring st₁.reader.cursor = true ∧ st₁.run tornRead = some st₂ ∧
      st₂.returned = [tornTrade] ∧ ¬∀ t ∈ st₂.returned, t ∈ st₂.added := by
  have heven : ∀ t ∈ (List.range ringSize).map (fun j => evenTrade (j + 1)),
      t.tradeId = t.quantity := by
    intro t ht
    obtain ⟨j, -, rfl⟩ := List.mem_map.1 ht
    rfl
  have hlen : ((List.range ringSize).map fun j => evenTrade (j + 1)).length = ringSize := by
    rw [List.length_map, List.length_range]
  have hzero : slotOf ((List.range ringSize).map fun j => evenTrade (j + 1)) 0 =
      ⟨evenTrade 1, 4⟩ := by
    rw [slotOf, List.getD_eq_getElem?_getD, List.getElem?_map, List.getElem?_range (by decide)]
    rfl
  generalize (List.range ringSize).map (fun j => evenTrade (j + 1)) = l at heven hlen hzero ⊢
  obtain ⟨st, hrun, hidle, hadded, hreader, hreturned, k, hw⟩ :=
    run_wholeAdds l writerAt_init rfl
  rw [Threads.init, List.nil_append] at hadded
  have hpc := hw.2
  simp only [hidle] at hpc
  obtain ⟨hk, hring⟩ := hpc
  obtain rfl : k = ringSize := by rw [← hk, hadded, hlen]
  have hslot : st.ring 0 = ⟨evenTrade 1, 4⟩ := by
    rw [hring, hadded, ← hzero]
    exact Ring.after_latest (c := 0) (by decide) (by decide)
  obtain ⟨st', hrun', hret', hadded'⟩ := run_tornRead hw hidle hreader hreturned hslot
  refine ⟨st, st', hrun, ?_, hrun', hret', fun hall => ?_⟩
  · rw [hreader]
    simp [anyNewTrade, Threads.init, start, hslot]
  · have hmem := hall _ (hret' ▸ List.mem_singleton_self _)
    rw [hadded', hadded] at hmem
    rcases List.mem_append.1 hmem with hmem | hmem
    · exact absurd (heven _ hmem) (by decide)
    · exact absurd (congrArg Trade.tradeId (List.mem_singleton.1 hmem)) (by decide)

end TradeRing

end TradeX
