import TradeX.OrderBook
import TradeX.Library.Ring
import Mathlib.Data.Nat.Bitwise
import Mathlib.Data.Nat.Prime.Basic

/-!
# The ring buffers of orders

`RingBuffer` of `producer_consumer.cpp`. Its indices are `uint32_t`s that are advanced by
`(i + 1) & (capacity - 1)` and used as they are. The mask has a one in each place below the
lowest one of the capacity, so whatever the capacity, the indices run through the first
`gcd(capacity, 2 ^ 32)` slots in turn (`advance_eq`), and the buffer is a queue in these
slots (`Holds`).
-/

namespace TradeX

/-- `RingBuffer`. -/
structure RingBuffer (α : Type) where
  buffer : ℕ → α
  capacity : ℕ
  head : ℕ
  tail : ℕ

namespace RingBuffer

variable {α : Type} {rb rb' : RingBuffer α} {l : List α}

/-- The constructor. The slots hold `buffer`. -/
def new (buffer : ℕ → α) (capacity : ℕ) : RingBuffer α :=
  ⟨buffer, capacity, 0, 0⟩

/-- `(i + 1) & (capacity - 1)`, of a `uint32_t` and a `size_t`, stored in a `uint32_t`. -/
def advance (capacity i : ℕ) : ℕ :=
  ((i + 1) % 2 ^ 32 &&& sub64 capacity 1) % 2 ^ 32

/-- `push`. -/
def push (rb : RingBuffer α) (item : α) : Except Fault (Bool × RingBuffer α) :=
  if advance rb.capacity rb.tail = rb.head then .ok (false, rb)
  else if rb.tail < rb.capacity then
    .ok (true, { rb with
      buffer := Function.update rb.buffer rb.tail item
      tail := advance rb.capacity rb.tail })
  else .error .badAccess

/-- `pop`. -/
def pop (rb : RingBuffer α) : Except Fault (Option (α × RingBuffer α)) :=
  if rb.head = rb.tail then .ok none
  else if rb.head < rb.capacity then
    .ok (some (rb.buffer rb.head, { rb with head := advance rb.capacity rb.head }))
  else .error .badAccess

/-- There is no room for another item. -/
def Full (rb : RingBuffer α) : Prop :=
  advance rb.capacity rb.tail = rb.head

instance (rb : RingBuffer α) : Decidable rb.Full :=
  inferInstanceAs (Decidable (_ = _))

theorem push_of_full (h : rb.Full) (item : α) : rb.push item = .ok (false, rb) :=
  if_pos h

/-! ## The slots in use -/

/-- The number of slots the indices run through. -/
def slotCount (capacity : ℕ) : ℕ :=
  Nat.gcd capacity (2 ^ 32)

theorem slotCount_pos (capacity : ℕ) : 0 < slotCount capacity :=
  Nat.gcd_pos_of_pos_right _ (by decide)

theorem slotCount_le {capacity : ℕ} (h : 0 < capacity) : slotCount capacity ≤ capacity :=
  Nat.gcd_le_left _ h

/-- The mask is one less than the capacity, in 64 bits. -/
theorem mask_add_one_mod (capacity : ℕ) {n : ℕ} (hn : n ∣ 2 ^ 64) :
    (sub64 capacity 1 % n + 1) % n = capacity % n := by
  have hsub : sub64 capacity 1 = (capacity + (2 ^ 64 - 1)) % 2 ^ 64 := by
    rw [sub64, Nat.mod_eq_of_lt (Nat.one_lt_two_pow (by decide))]
  rw [Nat.mod_add_mod, hsub, Nat.add_mod, Nat.mod_mod_of_dvd _ hn, ← Nat.add_mod, Nat.add_assoc,
    Nat.sub_add_cancel (by decide)]
  obtain ⟨m, hm⟩ := hn
  rw [hm, Nat.add_mul_mod_self_left]

/-- The places of the mask below the lowest one of the capacity are ones. -/
theorem mask_mod {capacity k : ℕ} (hk : k ≤ 64) (hdvd : 2 ^ k ∣ capacity) :
    sub64 capacity 1 % 2 ^ k = 2 ^ k - 1 := by
  have h := mask_add_one_mod capacity (pow_dvd_pow 2 hk)
  rw [Nat.mod_eq_zero_of_dvd hdvd] at h
  have hlt := Nat.mod_lt (sub64 capacity 1) (Nat.two_pow_pos k)
  rcases Nat.lt_or_ge (sub64 capacity 1 % 2 ^ k + 1) (2 ^ k) with hlt' | hge
  · rw [Nat.mod_eq_of_lt hlt'] at h
    omega
  · omega

/-- The place of the lowest one of the capacity is a zero of the mask. -/
theorem mask_mod_succ {capacity k : ℕ} (hk : k < 64) (hdvd : 2 ^ k ∣ capacity)
    (hndvd : ¬2 ^ (k + 1) ∣ capacity) : sub64 capacity 1 % 2 ^ (k + 1) = 2 ^ k - 1 := by
  have h := mask_add_one_mod capacity (n := 2 ^ (k + 1)) (pow_dvd_pow 2 (Nat.succ_le_of_lt hk))
  have hpow : 2 ^ (k + 1) = 2 * 2 ^ k := by rw [pow_succ, Nat.mul_comm]
  have hcap : capacity % 2 ^ (k + 1) = 2 ^ k := by
    obtain ⟨m, rfl⟩ := hdvd
    have hodd : m % 2 = 1 := by
      rcases Nat.mod_two_eq_zero_or_one m with hm | hm
      · obtain ⟨m', rfl⟩ := Nat.dvd_of_mod_eq_zero hm
        exact absurd ⟨m', by rw [pow_succ, Nat.mul_assoc]⟩ hndvd
      · exact hm
    rw [pow_succ, Nat.mul_mod_mul_left, hodd, Nat.mul_one]
  rw [hcap] at h
  have hpos := Nat.two_pow_pos k
  have hlt := Nat.mod_lt (sub64 capacity 1) (Nat.two_pow_pos (k + 1))
  rcases Nat.lt_or_ge (sub64 capacity 1 % 2 ^ (k + 1) + 1) (2 ^ (k + 1)) with hlt' | hge
  · rw [Nat.mod_eq_of_lt hlt'] at h
    omega
  · rw [show sub64 capacity 1 % 2 ^ (k + 1) + 1 = 2 ^ (k + 1) by omega, Nat.mod_self] at h
    omega

theorem and_mask_of_lt {x mask k : ℕ} (hx : x < 2 ^ k) (hmask : mask % 2 ^ k = 2 ^ k - 1) :
    x &&& mask = x := by
  have hle : x &&& mask < 2 ^ k := lt_of_le_of_lt Nat.and_le_left hx
  rw [← Nat.mod_eq_of_lt hle, Nat.and_mod_two_pow, hmask, Nat.and_two_pow_sub_one_eq_mod,
    Nat.mod_mod, Nat.mod_eq_of_lt hx]

theorem two_pow_and_mask {mask k : ℕ} (hmask : mask % 2 ^ (k + 1) = 2 ^ k - 1) :
    2 ^ k &&& mask = 0 := by
  have hlt : 2 ^ k < 2 ^ (k + 1) := Nat.pow_lt_pow_right (by decide) (Nat.lt_succ_self k)
  have hle : 2 ^ k &&& mask < 2 ^ (k + 1) := lt_of_le_of_lt Nat.and_le_left hlt
  rw [← Nat.mod_eq_of_lt hle, Nat.and_mod_two_pow, hmask, Nat.mod_eq_of_lt hlt,
    Nat.and_two_pow_sub_one_eq_mod, Nat.mod_self]

theorem advance_eq {capacity i : ℕ} (hi : i < slotCount capacity) :
    advance capacity i = (i + 1) % slotCount capacity := by
  obtain ⟨k, hk, hcount⟩ := (Nat.dvd_prime_pow Nat.prime_two).1
    (show slotCount capacity ∣ 2 ^ 32 from Nat.gcd_dvd_right ..)
  have hdvd : 2 ^ k ∣ capacity := hcount ▸ Nat.gcd_dvd_left ..
  rw [hcount] at hi ⊢
  have hle : (2 : ℕ) ^ k ≤ 2 ^ 32 := Nat.pow_le_pow_right (by decide) hk
  rw [advance]
  rcases Nat.eq_or_lt_of_le (Nat.succ_le_of_lt hi) with heq | hlt
  · -- the last slot : the carry goes to a zero of the mask, or out of 32 bits
    rw [Nat.succ_eq_add_one] at heq
    rw [heq, Nat.mod_self]
    rcases Nat.eq_or_lt_of_le hk with rfl | hk'
    · simp
    · have hndvd : ¬2 ^ (k + 1) ∣ capacity := fun h => by
        have hgcd : 2 ^ (k + 1) ∣ slotCount capacity :=
          Nat.dvd_gcd h (pow_dvd_pow 2 (Nat.succ_le_of_lt hk'))
        rw [hcount] at hgcd
        exact absurd (Nat.pow_dvd_pow_iff_le_right (by decide) |>.1 hgcd) (by omega)
      have hlt : (2 : ℕ) ^ k < 2 ^ 32 := Nat.pow_lt_pow_right (by decide) hk'
      rw [Nat.mod_eq_of_lt hlt, two_pow_and_mask (mask_mod_succ (by omega) hdvd hndvd)]
      rfl
  · rw [Nat.succ_eq_add_one] at hlt
    rw [Nat.mod_eq_of_lt (hlt.trans_le hle), and_mask_of_lt hlt (mask_mod (by omega) hdvd),
      Nat.mod_eq_of_lt (hlt.trans_le hle), Nat.mod_eq_of_lt hlt]

/-! ## The buffer is a queue -/

/-- The buffer holds the items of `l`, after `h` items have been popped. -/
structure HoldsAt (h : ℕ) (rb : RingBuffer α) (l : List α) : Prop where
  head : rb.head = h % slotCount rb.capacity
  tail : rb.tail = (h + l.length) % slotCount rb.capacity
  slots : Ring.Slots (slotCount rb.capacity) h rb.buffer l

/-- The buffer holds the items of `l`. -/
def Holds (rb : RingBuffer α) (l : List α) : Prop :=
  ∃ h, HoldsAt h rb l

theorem new_holds (buffer : ℕ → α) (capacity : ℕ) : Holds (new buffer capacity) [] :=
  ⟨0, (Nat.zero_mod _).symm, (Nat.zero_mod _).symm, .empty (slotCount_pos capacity) 0 buffer⟩

theorem HoldsAt.advance_tail {h : ℕ} (hh : HoldsAt h rb l) :
    advance rb.capacity rb.tail = (h + (l.length + 1)) % slotCount rb.capacity := by
  rw [hh.tail, advance_eq (Nat.mod_lt _ (slotCount_pos _)), Nat.mod_add_mod, Nat.add_assoc]

/-- What `push` does, if it returns : it refuses the item when the slots are in use, and
appends it otherwise. -/
theorem Holds.of_push (h : Holds rb l) {item : α} {accepted : Bool}
    (hpush : rb.push item = .ok (accepted, rb')) :
    accepted = false ∧ rb' = rb ∧ l.length + 1 = slotCount rb.capacity ∨
      accepted = true ∧ Holds rb' (l ++ [item]) := by
  obtain ⟨k, h⟩ := h
  have hlt := h.slots.lt
  rw [push, h.advance_tail, h.head] at hpush
  split_ifs at hpush with hfull hin
  · obtain ⟨rfl, rfl⟩ := Prod.mk.inj (Except.ok.inj hpush)
    refine Or.inl ⟨rfl, rfl, ?_⟩
    by_contra hne
    exact Ring.mod_ne_of_lt (by omega) (by omega) hfull
  · obtain ⟨rfl, rfl⟩ := Prod.mk.inj (Except.ok.inj hpush)
    refine Or.inr ⟨rfl, k, rfl, ?_, ?_⟩
    · rw [List.length_append, List.length_singleton]
    · have hroom : l.length + 1 ≠ slotCount rb.capacity := fun heq =>
        hfull (by rw [heq, Nat.add_mod_right])
      rw [h.tail]
      exact h.slots.push (by omega) item

theorem Holds.of_accepted (h : Holds rb l) {item : α} (hpush : rb.push item = .ok (true, rb')) :
    Holds rb' (l ++ [item]) := by
  rcases h.of_push hpush with ⟨hfalse, -⟩ | ⟨-, hitems⟩
  · cases hfalse
  · exact hitems

/-- What `pop` does, if it returns : it takes the first item, if there is one. -/
theorem Holds.of_pop (h : Holds rb l) {r : Option (α × RingBuffer α)} (hpop : rb.pop = .ok r) :
    l = [] ∧ r = none ∨ ∃ item l' rb', l = item :: l' ∧ r = some (item, rb') ∧
      Holds rb' l' := by
  obtain ⟨k, h⟩ := h
  have hlt := h.slots.lt
  rw [pop] at hpop
  cases l with
  | nil =>
    rw [h.head, h.tail, List.length_nil, Nat.add_zero, if_pos rfl, Except.ok.injEq] at hpop
    exact Or.inl ⟨rfl, hpop.symm⟩
  | cons item l =>
    have hne : rb.head ≠ rb.tail := by
      rw [h.head, h.tail]
      exact (Ring.mod_ne_of_lt (by simp) (by omega)).symm
    rw [if_neg hne] at hpop
    split_ifs at hpop
    obtain ⟨hitem, hslots⟩ := h.slots.pop
    rw [Except.ok.injEq, h.head, hitem] at hpop
    refine Or.inr ⟨item, l, _, rfl, hpop.symm, k + 1, ?_, ?_, hslots⟩
    · rw [advance_eq (Nat.mod_lt _ (slotCount_pos _)), Nat.mod_add_mod]
    · rw [h.tail, List.length_cons, Nat.add_right_comm, Nat.add_assoc]

theorem capacity_of_pop {item : α} (hpop : rb.pop = .ok (some (item, rb'))) :
    rb'.capacity = rb.capacity := by
  rw [pop] at hpop
  split_ifs at hpop
  · cases hpop
  · obtain ⟨-, rfl⟩ := Prod.mk.inj (Option.some.inj (Except.ok.inj hpop))
    rfl

theorem capacity_of_push {item : α} {accepted : Bool}
    (hpush : rb.push item = .ok (accepted, rb')) : rb'.capacity = rb.capacity := by
  rw [push] at hpush
  split_ifs at hpush
  · obtain ⟨-, rfl⟩ := Prod.mk.inj (Except.ok.inj hpush)
    rfl
  · obtain ⟨-, rfl⟩ := Prod.mk.inj (Except.ok.inj hpush)
    rfl

/-! ## How many items there are -/

/-- The number of items between the indices. -/
def size (rb : RingBuffer α) : ℕ :=
  (rb.tail + slotCount rb.capacity - rb.head) % slotCount rb.capacity

theorem Holds.size_eq (h : Holds rb l) : rb.size = l.length := by
  obtain ⟨k, h⟩ := h
  have hlt := h.slots.lt
  have hk := Nat.mod_lt k (slotCount_pos rb.capacity)
  rw [size, h.tail, h.head, ← Nat.mod_add_mod]
  rcases Nat.lt_or_ge (k % slotCount rb.capacity + l.length) (slotCount rb.capacity) with hin | hout
  · rw [Nat.mod_eq_of_lt hin, Nat.add_assoc, Nat.add_sub_cancel_left, Nat.add_mod_right,
      Nat.mod_eq_of_lt hlt]
  · have hback : (k % slotCount rb.capacity + l.length) % slotCount rb.capacity =
        k % slotCount rb.capacity + l.length - slotCount rb.capacity := by
      rw [Nat.mod_eq_sub_mod hout]
      exact Nat.mod_eq_of_lt (by omega)
    rw [hback, Nat.sub_add_cancel hout, Nat.add_sub_cancel_left, Nat.mod_eq_of_lt hlt]

/-- The indices stay inside of the buffer, so the calls return. -/
theorem Holds.push_returns (h : Holds rb l) (hpos : 0 < rb.capacity) (item : α) :
    ∃ r, rb.push item = .ok r := by
  obtain ⟨k, h⟩ := h
  have htail : rb.tail < rb.capacity := by
    rw [h.tail]
    exact (Nat.mod_lt _ (slotCount_pos _)).trans_le (slotCount_le hpos)
  rw [push]
  split_ifs
  · exact ⟨_, rfl⟩
  · exact ⟨_, rfl⟩

theorem Holds.pop_returns (h : Holds rb l) (hpos : 0 < rb.capacity) : ∃ r, rb.pop = .ok r := by
  obtain ⟨k, h⟩ := h
  have hhead : rb.head < rb.capacity := by
    rw [h.head]
    exact (Nat.mod_lt _ (slotCount_pos _)).trans_le (slotCount_le hpos)
  rw [pop]
  split_ifs
  · exact ⟨_, rfl⟩
  · exact ⟨_, rfl⟩

end RingBuffer

end TradeX
