import TradeX.OrderBook
import TradeX.Library.Ring

/-!
# The single-producer single-consumer queues

`spsc_queue` is written three times in the source, for market data messages, for requests
and, as `get_region` and `give_region`, for memory regions : an array whose size is a power
of two, and two 64-bit counters that are never reset and are masked when they are used.
`Holds n q l` says that a queue with an array of `n` holds the items of `l`, first to last;
`push` appends to `l` and `pop` takes its first item.
-/

namespace TradeX

/-- `SPSCQueue`. -/
structure SpscQueue (α : Type) where
  array : ℕ → α
  head : ℕ
  tail : ℕ

namespace SpscQueue

variable {α : Type} {n : ℕ} {q : SpscQueue α} {l : List α}

/-- An array that holds `array`, and counters zero. -/
def new (array : ℕ → α) : SpscQueue α :=
  ⟨array, 0, 0⟩

/-- `push`. -/
def push (n : ℕ) (q : SpscQueue α) (item : α) : Bool × SpscQueue α :=
  if add64 q.tail 1 % n ≠ q.head % n then
    (true, { q with array := Function.update q.array (q.tail % n) item, tail := add64 q.tail 1 })
  else (false, q)

/-- `pop`. -/
def pop (n : ℕ) (q : SpscQueue α) : Option (α × SpscQueue α) :=
  if q.tail ≠ q.head then some (q.array (q.head % n), { q with head := add64 q.head 1 })
  else none

/-- The queue holds the items of `l`. The number of items popped is `h`, before it is
truncated. -/
structure HoldsAt (n h : ℕ) (q : SpscQueue α) (l : List α) : Prop where
  dvd : n ∣ 2 ^ 64
  head : q.head = h % 2 ^ 64
  tail : q.tail = (h + l.length) % 2 ^ 64
  slots : Ring.Slots n h q.array l

/-- The queue holds the items of `l`. -/
def Holds (n : ℕ) (q : SpscQueue α) (l : List α) : Prop :=
  ∃ h, HoldsAt n h q l

theorem new_holds (array : ℕ → α) (hdvd : n ∣ 2 ^ 64) : Holds n (new array) [] :=
  ⟨0, hdvd, rfl, rfl, .empty (Nat.pos_of_dvd_of_pos hdvd (by decide)) 0 array⟩

/-- A queue with room takes the item. -/
theorem Holds.push (h : Holds n q l) (hroom : l.length + 1 < n) (item : α) :
    ∃ q', q.push n item = (true, q') ∧ Holds n q' (l ++ [item]) := by
  obtain ⟨k, h⟩ := h
  have htail : q.tail % n = (k + l.length) % n := by rw [h.tail, Nat.mod_mod_of_dvd _ h.dvd]
  have hnext : add64 q.tail 1 = (k + l.length + 1) % 2 ^ 64 := by
    rw [add64, h.tail, Nat.mod_add_mod]
  have hfree : add64 q.tail 1 % n ≠ q.head % n := by
    rw [hnext, h.head, Nat.mod_mod_of_dvd _ h.dvd, Nat.mod_mod_of_dvd _ h.dvd]
    exact Ring.mod_ne_of_lt (by omega) (by omega)
  refine ⟨_, if_pos hfree, k, h.dvd, h.head, ?_, ?_⟩
  · rw [List.length_append, List.length_singleton]
    exact hnext
  · rw [htail]
    exact h.slots.push hroom item

/-- A full queue refuses the item. -/
theorem Holds.push_full (h : Holds n q l) (hfull : l.length + 1 = n) (item : α) :
    q.push n item = (false, q) := by
  obtain ⟨k, h⟩ := h
  have heq : add64 q.tail 1 % n = q.head % n := by
    rw [add64, h.tail, Nat.mod_add_mod, h.head, Nat.mod_mod_of_dvd _ h.dvd,
      Nat.mod_mod_of_dvd _ h.dvd, Nat.add_assoc, hfull, Nat.add_mod_right]
  rw [SpscQueue.push, if_neg (not_not.2 heq)]

/-- A queue with an item gives the first one. -/
theorem Holds.pop {item : α} (h : Holds n q (item :: l)) :
    ∃ q', q.pop n = some (item, q') ∧ Holds n q' l := by
  obtain ⟨k, h⟩ := h
  have hlen := h.slots.lt
  have hle := Nat.le_of_dvd (by decide) h.dvd
  have hne : q.tail ≠ q.head := by
    rw [h.tail, h.head]
    exact Ring.mod_ne_of_lt (by simp) (by omega)
  obtain ⟨hitem, hslots⟩ := h.slots.pop
  refine ⟨{ q with head := add64 q.head 1 }, ?_, k + 1, h.dvd, ?_, ?_, hslots⟩
  · rw [SpscQueue.pop, if_pos hne, h.head, Nat.mod_mod_of_dvd _ h.dvd, hitem]
  · rw [add64, h.head, Nat.mod_add_mod]
  · rw [h.tail, List.length_cons, Nat.add_right_comm, Nat.add_assoc]

/-- An empty queue gives nothing. -/
theorem Holds.pop_nil (h : Holds n q []) : q.pop n = none := by
  obtain ⟨k, h⟩ := h
  have heq : q.tail = q.head := by
    rw [h.tail, h.head]
    rfl
  rw [SpscQueue.pop, if_neg (not_not.2 heq)]

/-- Items that all fit are appended in order. -/
theorem Holds.foldl_push (h : Holds n q l) : ∀ {l' : List α}, l.length + l'.length < n →
    Holds n (l'.foldl (fun q item => (q.push n item).2) q) (l ++ l') := by
  intro l'
  induction l' generalizing q l with
  | nil =>
    intro _
    rwa [List.append_nil]
  | cons item l' ih =>
    intro hroom
    rw [List.length_cons] at hroom
    obtain ⟨q', hpush, hq'⟩ := h.push (by omega) item
    rw [List.foldl_cons, hpush, List.append_cons]
    exact ih hq' (by rw [List.length_append, List.length_singleton]; omega)

theorem head_push (item : α) : (q.push n item).2.head = q.head := by
  unfold push
  split_ifs <;> rfl

theorem head_foldl_push : ∀ (l : List α) (q : SpscQueue α),
    (l.foldl (fun q item => (q.push n item).2) q).head = q.head
  | [], _ => rfl
  | item :: l, _ => (head_foldl_push l _).trans (head_push item)

/-- A queue that nothing has been popped from holds its items from the first slot on. -/
theorem Holds.slots_zero (h : Holds n q l) (hhead : q.head = 0) :
    Ring.Slots n 0 q.array l ∧ q.tail = l.length % 2 ^ 64 := by
  obtain ⟨k, h⟩ := h
  have hk : k % 2 ^ 64 = 0 := h.head.symm.trans hhead
  have hkn : k % n = 0 := Nat.mod_eq_zero_of_dvd (h.dvd.trans (Nat.dvd_of_mod_eq_zero hk))
  refine ⟨⟨h.slots.lt, fun j hj => ?_⟩, ?_⟩
  · rw [h.slots.item j hj, Nat.add_mod, hkn, Nat.zero_add, Nat.mod_mod, Nat.zero_add]
  · rw [h.tail, Nat.add_mod, hk, Nat.zero_add, Nat.mod_mod]

end SpscQueue

end TradeX
