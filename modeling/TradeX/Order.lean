import Mathlib.Algebra.Ring.Nat

/-!
# Orders and trades

The records of `order.h` and `trade.h`. Every field of the source is an unsigned machine
integer; here it is a natural number, and `Order.InRange` states the one width the
matching engine relies on. `Fault` collects the ways a call can fail to return.
-/

namespace TradeX

/-- `NULL_IDX`. -/
def nullIdx : ℕ := 2 ^ 32 - 1

/-- `SYMBOL_BITS`. -/
def symbolBits : ℕ := 10

/-- `MAX_SYMBOLS`. -/
def maxSymbols : ℕ := 2 ^ symbolBits

/-- `GROUP_COUNT`. -/
def groupCount : ℕ := 2

theorem zero_lt_groupCount : 0 < groupCount :=
  Nat.zero_lt_two

theorem one_lt_groupCount : 1 < groupCount :=
  Nat.one_lt_two

/-- `TOTAL_SYMBOLS`. -/
def totalSymbols : ℕ := maxSymbols * groupCount

/-- `OrderType`. -/
inductive OrderType
  | buy
  | sell
  deriving DecidableEq, Repr

/-- The side an order trades against. -/
def OrderType.opposite : OrderType → OrderType
  | buy => sell
  | sell => buy

@[simp] theorem OrderType.opposite_buy : OrderType.buy.opposite = .sell := rfl

@[simp] theorem OrderType.opposite_sell : OrderType.sell.opposite = .buy := rfl

@[simp] theorem OrderType.opposite_opposite (s : OrderType) : s.opposite.opposite = s := by
  cases s <;> rfl

@[simp] theorem OrderType.opposite_ne (s : OrderType) : s.opposite ≠ s := by
  cases s <;> decide

@[simp] theorem OrderType.ne_opposite (s : OrderType) : s ≠ s.opposite := by
  cases s <;> decide

/-- There are two sides. -/
theorem OrderType.eq_or_eq_opposite (s t : OrderType) : t = s ∨ t = s.opposite := by
  cases s <;> cases t <;> decide

/-- `OrderExecutionType`. -/
inductive OrderExecutionType
  | market
  | limit
  | stopLoss
  | iceberg
  deriving DecidableEq, Repr

/-- `Order`. -/
structure Order where
  orderId : ℕ
  executionType : OrderExecutionType
  price : ℕ
  timestamp : ℕ
  traderId : ℕ
  type : OrderType
  symbolId : ℕ
  quantity : ℕ
  clientOrderId : ℕ
  deriving DecidableEq, Repr

/-- The quantity is a `uint32_t`. -/
def Order.InRange (o : Order) : Prop :=
  o.quantity < 2 ^ 32

instance (o : Order) : Decidable o.InRange :=
  inferInstanceAs (Decidable (_ < _))

/-- `o` is what is left of `o'` : the same order with at most its quantity. -/
structure Order.PartOf (o o' : Order) : Prop where
  eq : o = { o' with quantity := o.quantity }
  le : o.quantity ≤ o'.quantity

namespace Order.PartOf

variable {o o' o'' : Order}

theorem refl (o : Order) : o.PartOf o :=
  ⟨rfl, Nat.le_refl _⟩

theorem of_le {q : ℕ} (h : q ≤ o.quantity) : ({ o with quantity := q } : Order).PartOf o :=
  ⟨rfl, h⟩

theorem trans (h : o.PartOf o') (h' : o'.PartOf o'') : o.PartOf o'' := by
  refine ⟨h.eq.trans ?_, Nat.le_trans h.le h'.le⟩
  rw [h'.eq]

theorem orderId (h : o.PartOf o') : o.orderId = o'.orderId := by rw [h.eq]

theorem clientOrderId (h : o.PartOf o') : o.clientOrderId = o'.clientOrderId := by rw [h.eq]

theorem executionType (h : o.PartOf o') : o.executionType = o'.executionType := by rw [h.eq]

theorem type (h : o.PartOf o') : o.type = o'.type := by rw [h.eq]

theorem price (h : o.PartOf o') : o.price = o'.price := by rw [h.eq]

end Order.PartOf

/-- `Trade`. -/
structure Trade where
  tradeId : ℕ
  timestampNs : ℕ
  price : ℕ
  buyOrderId : ℕ
  sellOrderId : ℕ
  symbolId : ℕ
  quantity : ℕ
  deriving DecidableEq, Repr

/-- Why a call does not return : it throws, reads or writes outside an array, divides by
zero, or loops for ever. Only the first is behaviour the language defines. -/
inductive Fault
  | outOfRange (what : String)
  | badAccess
  | divisionByZero
  | nonTermination
  deriving DecidableEq, Repr

@[simp] theorem ok_bind {α β : Type} (a : α) (f : α → Except Fault β) :
    (Except.ok a >>= f) = f a := rfl

@[simp] theorem error_bind {α β : Type} (e : Fault) (f : α → Except Fault β) :
    ((Except.error e : Except Fault α) >>= f) = .error e := rfl

/-- A call that returns has returned from every call it makes. -/
theorem bind_eq_ok {α β : Type} {x : Except Fault α} {f : α → Except Fault β} {r : β} :
    (x >>= f) = .ok r ↔ ∃ a, x = .ok a ∧ f a = .ok r := by
  cases x with
  | error e => simp
  | ok a => simp

/-- What is seen of the result of a call that returns. -/
theorem map_eq_ok {α β : Type} {x : Except Fault α} {f : α → β} {r : β} :
    x.map f = .ok r ↔ ∃ a, x = .ok a ∧ f a = r := by
  cases x with
  | error e => simp [Except.map]
  | ok a => simp [Except.map]

theorem ok_of_toOption {α : Type} {x : Except Fault α} {a : α} (h : x.toOption = some a) :
    x = .ok a := by
  cases x with
  | error e => simp [Except.toOption] at h
  | ok b => simpa [Except.toOption] using h

end TradeX
