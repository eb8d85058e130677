import TradeX.RingBuffer
import TradeX.SpscQueue
import TradeX.Library.Fifo

/-!
# The queues as bounded lists

A `RingBuffer` of any capacity is a list with room for fewer than `slotCount capacity` items
(`RingBuffer.refines`), and an `spsc_queue` with an array of `n` one with room for fewer than `n`
(`SpscQueue.refines`), through every turn of the indices and of the 64-bit counters. For a power
of two up to `2 ^ 31` the two are the same list, so `queues_agree`.

The number of slots is the capacity that was asked for only if that is a power of two
(`offersCapacity_iff`) : the default capacity of the OMS, 10000, makes 16 slots.
-/

namespace TradeX

variable {α : Type}

/-! ## The ring buffers -/

namespace RingBuffer

variable {rb : RingBuffer α} {l : List α} {capacity : ℕ}

/-- A call of `push` or `pop`. -/
def call (rb : RingBuffer α) : Fifo.Call α → Except Fault (Fifo.Answer α × RingBuffer α)
  | .push item => do
    let (accepted, rb) ← rb.push item
    .ok (.pushed accepted, rb)
  | .pop => do
    match ← rb.pop with
    | none => .ok (.popped none, rb)
    | some (item, rb) => .ok (.popped (some item), rb)

/-- Of a buffer that has a slot no call fails : the indices stay in the slots in use. -/
theorem Holds.index_lt (h : Holds rb l) (hcap : 0 < rb.capacity) :
    rb.head < rb.capacity ∧ rb.tail < rb.capacity := by
  obtain ⟨k, h⟩ := h
  have hpos := slotCount_pos rb.capacity
  have hle := slotCount_le hcap
  rw [h.head, h.tail]
  exact ⟨(Nat.mod_lt _ hpos).trans_le hle, (Nat.mod_lt _ hpos).trans_le hle⟩

theorem Holds.exists_push (h : Holds rb l) (hcap : 0 < rb.capacity) (item : α) :
    ∃ accepted rb', rb.push item = .ok (accepted, rb') ∧ rb'.capacity = rb.capacity := by
  rw [push]
  split_ifs with hfull hin
  · exact ⟨false, rb, rfl, rfl⟩
  · exact ⟨true, _, rfl, rfl⟩
  · exact absurd (h.index_lt hcap).2 hin

theorem Holds.exists_pop (h : Holds rb l) (hcap : 0 < rb.capacity) :
    ∃ r, rb.pop = .ok r ∧ ∀ item rb', r = some (item, rb') →
      rb'.capacity = rb.capacity := by
  rw [pop]
  split_ifs with hempty hin
  · exact ⟨none, rfl, fun item rb' hr => by cases hr⟩
  · refine ⟨_, rfl, fun item rb' hr => ?_⟩
    obtain ⟨-, rfl⟩ := Prod.mk.inj (Option.some.inj hr)
    rfl
  · exact absurd (h.index_lt hcap).1 hin

theorem Holds.length_lt (h : Holds rb l) : l.length < slotCount rb.capacity := by
  obtain ⟨k, h⟩ := h
  exact h.slots.lt

/-- A buffer of a capacity that is not zero is a list. -/
theorem refines (hcap : 0 < capacity) : Fifo.Refines (@call α) (slotCount capacity)
    fun rb l => rb.capacity = capacity ∧ Holds rb l := by
  rintro rb l (item | _) ⟨rfl, h⟩
  · obtain ⟨accepted, rb', hpush, hsame⟩ := h.exists_push hcap item
    have hcall : rb.call (.push item) = .ok (.pushed accepted, rb') := by rw [call, hpush, ok_bind]
    rcases h.of_push hpush with ⟨rfl, rfl, hfull⟩ | ⟨rfl, hitems⟩
    · have hno : ¬l.length + 1 < slotCount rb'.capacity := by omega
      refine ⟨rb', ?_, rfl, ?_⟩
      · rw [hcall, Fifo.call, if_neg hno]
      · rwa [Fifo.call, if_neg hno]
    · have hroom := hitems.length_lt
      rw [hsame, List.length_append, List.length_singleton] at hroom
      refine ⟨rb', ?_, hsame, ?_⟩
      · rw [hcall, Fifo.call, if_pos hroom]
      · rwa [Fifo.call, if_pos hroom]
  · obtain ⟨r, hpop, hsame⟩ := h.exists_pop hcap
    rcases h.of_pop hpop with ⟨rfl, rfl⟩ | ⟨item, l', rb', rfl, rfl, hitems⟩
    · exact ⟨rb, by rw [call, hpop]; rfl, rfl, h⟩
    · exact ⟨rb', by rw [call, hpop]; rfl, hsame item rb' rfl, hitems⟩

/-- The answers of a new buffer are those of the empty list. -/
theorem answers_new (hcap : 0 < capacity) (buffer : ℕ → α) (calls : List (Fifo.Call α)) :
    ∃ rb, Fifo.answers call (new buffer capacity) calls =
        .ok ((Fifo.listAnswers (slotCount capacity) [] calls).1, rb) ∧
      rb.capacity = capacity ∧ Holds rb (Fifo.listAnswers (slotCount capacity) [] calls).2 :=
  (refines hcap).answers calls ⟨rfl, new_holds buffer capacity⟩

end RingBuffer

/-! ## The single-producer single-consumer queues -/

namespace SpscQueue

/-- A call of `push` or `pop`, or of `give_region` or `get_region`. No access is outside the
array. -/
def call (n : ℕ) (q : SpscQueue α) : Fifo.Call α →
    Except Fault (Fifo.Answer α × SpscQueue α)
  | .push item =>
    let (accepted, q) := q.push n item
    .ok (.pushed accepted, q)
  | .pop =>
    match q.pop n with
    | none => .ok (.popped none, q)
    | some (item, q) => .ok (.popped (some item), q)

theorem refines (n : ℕ) : Fifo.Refines (@call α n) n (Holds n) := by
  rintro q l (item | _) h
  · have hlt : l.length < n := h.elim fun k hk => hk.slots.lt
    by_cases hroom : l.length + 1 < n
    · obtain ⟨q', hpush, hitems⟩ := h.push hroom item
      refine ⟨q', ?_, ?_⟩
      · rw [call, hpush, Fifo.call, if_pos hroom]
      · rwa [Fifo.call, if_pos hroom]
    · refine ⟨q, ?_, ?_⟩
      · rw [call, h.push_full (by omega) item, Fifo.call, if_neg hroom]
      · rwa [Fifo.call, if_neg hroom]
  · cases l with
    | nil => exact ⟨q, by rw [call, h.pop_nil]; rfl, h⟩
    | cons item l =>
      obtain ⟨q', hpop, hitems⟩ := h.pop
      exact ⟨q', by rw [call, hpop]; rfl, hitems⟩

end SpscQueue

/-! ## Agreement -/

namespace RingBuffer

/-- Up to `2 ^ 32` the slots of a power of two are all in use. -/
theorem slotCount_two_pow {k : ℕ} (hk : k ≤ 32) : slotCount (2 ^ k) = 2 ^ k :=
  Nat.gcd_eq_left (pow_dvd_pow 2 hk)

end RingBuffer

/-- A ring buffer and an `spsc_queue` of the same power of two answer every sequence of calls
alike. -/
theorem queues_agree {N : ℕ} (hpow : N.isPowerOfTwo) (hle : N ≤ 2 ^ 31)
    (buffer array : ℕ → α) (calls : List (Fifo.Call α)) :
    ∃ answers rb q, Fifo.answers RingBuffer.call (RingBuffer.new buffer N) calls =
      .ok (answers, rb) ∧
      Fifo.answers (SpscQueue.call N) (SpscQueue.new array) calls = .ok (answers, q) := by
  obtain ⟨k, rfl⟩ := hpow
  have hk : k ≤ 31 := (Nat.pow_le_pow_iff_right (by decide)).1 hle
  obtain ⟨rb, hrb, -⟩ := RingBuffer.answers_new (Nat.two_pow_pos k) buffer calls
  have hnew : SpscQueue.Holds (2 ^ k) (SpscQueue.new array) [] :=
    SpscQueue.new_holds array (pow_dvd_pow 2 (by omega))
  obtain ⟨q, hq, -⟩ := (SpscQueue.refines (2 ^ k)).answers calls hnew
  rw [RingBuffer.slotCount_two_pow (by omega)] at hrb
  exact ⟨_, rb, q, hrb, hq⟩

/-- Four slots, filled and emptied past their end. -/
def turningCalls : List (Fifo.Call ℕ) :=
  [.pop, .push 1, .push 2, .push 3, .push 4, .pop, .push 5, .pop, .pop, .pop, .pop]

theorem queues_agree_four :
    ∃ answers rb q,
      Fifo.answers RingBuffer.call (RingBuffer.new (fun _ => 0) 4) turningCalls =
        .ok (answers, rb) ∧
      Fifo.answers (SpscQueue.call 4) (SpscQueue.new fun _ => 0) turningCalls = .ok (answers, q) :=
  queues_agree ⟨2, rfl⟩ (by decide) _ _ _

/-! ## The capacity -/

namespace RingBuffer

variable {capacity : ℕ}

/-- Whatever calls have been made, they have returned, and a push is refused only if
`capacity - 1` items are held. -/
def OffersCapacity (buffer : ℕ → α) (capacity : ℕ) : Prop :=
  ∀ calls, ∃ answers rb, Fifo.answers call (new buffer capacity) calls = .ok (answers, rb) ∧
    ∀ item rb', rb.push item = .ok (false, rb') → Fifo.held answers = capacity - 1

/-- A push is refused exactly when one slot is left. -/
theorem Holds.refused_iff {rb : RingBuffer α} {l : List α} (h : Holds rb l)
    (hcap : 0 < rb.capacity)
    (item : α) : (∃ rb', rb.push item = .ok (false, rb')) ↔
    l.length + 1 = slotCount rb.capacity := by
  obtain ⟨accepted, rb', hpush, hsame⟩ := h.exists_push hcap item
  rcases h.of_push hpush with ⟨rfl, -, hfull⟩ | ⟨rfl, hitems⟩
  · exact iff_of_true ⟨rb', hpush⟩ hfull
  · have hlt := hitems.length_lt
    rw [hsame, List.length_append, List.length_singleton] at hlt
    refine iff_of_false ?_ hlt.ne
    rintro ⟨rb'', hrefused⟩
    rw [hpush] at hrefused
    cases hrefused

/-- The items held when the slots in use are full. -/
theorem OffersCapacity.slotCount_eq {buffer : ℕ → α} (h : OffersCapacity buffer capacity)
    (hcap : 2 ≤ capacity) : slotCount capacity = capacity := by
  have hpos := slotCount_pos capacity
  set calls : List (Fifo.Call α) := List.replicate (slotCount capacity - 1) (.push (buffer 0))
    with hcalls
  obtain ⟨rb, hrb, hsame, hitems⟩ := answers_new (show 0 < capacity by omega) buffer calls
  have hlength : (Fifo.listAnswers (slotCount capacity) [] calls).2.length =
      slotCount capacity - 1 := by
    rw [hcalls, Fifo.listAnswers_replicate _ _ _ (by rw [List.length_nil]; omega), List.length_nil,
      Nat.zero_add]
  obtain ⟨answers, rb', hrun, hheld⟩ := h calls
  obtain ⟨rfl, rfl⟩ := Prod.mk.inj (Except.ok.inj (hrb.symm.trans hrun))
  obtain ⟨rb'', hpush⟩ :=
    (hitems.refused_iff (by omega) (buffer 0)).2 (by rw [hlength, hsame]; omega)
  have hcount := hheld (buffer 0) rb'' hpush
  rw [Fifo.held_listAnswers, hlength] at hcount
  omega

/-- The buffer has the capacity that it was asked for iff that is a power of two, and the indices
can hold it. -/
theorem offersCapacity_iff (buffer : ℕ → α) (hcap : 2 ≤ capacity) :
    OffersCapacity buffer capacity ↔ ∃ k ≤ 32, capacity = 2 ^ k := by
  constructor
  · intro h
    have hdvd : capacity ∣ 2 ^ 32 := by
      rw [← h.slotCount_eq hcap]
      exact Nat.gcd_dvd_right ..
    exact (Nat.dvd_prime_pow Nat.prime_two).1 hdvd
  · rintro ⟨k, hk, rfl⟩ calls
    have hpos : 0 < 2 ^ k := by omega
    obtain ⟨rb, hrb, hsame, hitems⟩ := answers_new hpos buffer calls
    refine ⟨_, rb, hrb, fun item rb' hpush => ?_⟩
    have hfull := (hitems.refused_iff (by omega) item).1 ⟨rb', hpush⟩
    rw [hsame, slotCount_two_pow hk] at hfull
    rw [Fifo.held_listAnswers, slotCount_two_pow hk]
    omega

theorem offersCapacity_1024 : OffersCapacity (fun _ => 0) 1024 :=
  (offersCapacity_iff _ (by decide)).2 ⟨10, by decide, rfl⟩

/-- Asked for 10000, the buffer takes 15 items and refuses the next. -/
theorem offersCapacity_default :
    ¬OffersCapacity (fun _ => 0) 10000 ∧
    ∃ answers rb, Fifo.answers call (new (fun _ => 0) 10000) (List.replicate 15 (.push 0)) =
        .ok (answers, rb) ∧
      Fifo.held answers = 15 ∧ rb.push 0 = .ok (false, rb) := by
  have hslots : slotCount 10000 = 16 := by decide
  obtain ⟨rb, hrb, hsame, hitems⟩ :=
    answers_new (show 0 < 10000 by decide) (fun _ => 0) (List.replicate 15 (.push 0))
  have hheld : Fifo.held (Fifo.listAnswers (slotCount 10000) [] (List.replicate 15 (.push 0))).1 =
      15 := by
    rw [hslots]
    decide
  obtain ⟨rb', hpush⟩ := (hitems.refused_iff (by rw [hsame]; decide) 0).2 (by
    rw [← Fifo.held_listAnswers, hheld, hsame, hslots])
  refine ⟨fun h => ?_, _, rb, hrb, hheld, ?_⟩
  · exact absurd (h.slotCount_eq (by decide)) (by rw [hslots]; decide)
  · rcases hitems.of_push hpush with ⟨-, rfl, -⟩ | ⟨htrue, -⟩
    · exact hpush
    · cases htrue

end RingBuffer

end TradeX
