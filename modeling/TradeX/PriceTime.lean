import TradeX.Matching

/-!
# Price-time priority

The matcher the book is meant to implement, with no book at all : one list of resting
orders for each side, best price first and, at one price, first come first. An incoming
order trades against the first order of the opposite list, at that order's price, for as
long as its limit accepts the price. What is left of a market order is discarded; what is
left of another order rests, unless `capacity` orders rest already.
-/

namespace TradeX

namespace PriceTime

/-- The resting orders of the two sides. -/
abbrev Book := OrderType → List Order

/-- What is left when an incoming order has traded : the executions, the opposite list
and the order with its remaining quantity. -/
structure Fill where
  executions : List Execution
  opposite : List Order
  order : Order

/-- Trade `order` against the resting orders of side `s`, first to last, while `accepts`
accepts the price. -/
def fill (s : OrderType) (accepts : ℕ → Prop) [DecidablePred accepts] :
    ℕ → Order → List Order → Fill
  | _, order, [] => ⟨[], [], order⟩
  | id, order, o :: rest =>
    if 0 < order.quantity ∧ accepts o.price then
      if order.quantity < o.quantity then
        ⟨[execute s id o.price order.quantity order o],
          { o with quantity := o.quantity - order.quantity } :: rest,
          { order with quantity := 0 }⟩
      else
        let r := fill s accepts (nextTradeId id)
          { order with quantity := order.quantity - o.quantity } rest
        { r with executions := execute s id o.price o.quantity order o :: r.executions }
    else ⟨[], o :: rest, order⟩

/-- `order` behind every resting order whose price is at least as good. -/
def insert (s : OrderType) (order : Order) (l : List Order) : List Order :=
  l.orderedInsert (fun o o' => ¬better s o'.price o.price) order

/-- The number of resting orders. -/
def Book.size (R : Book) : ℕ :=
  (R .buy).length + (R .sell).length

/-- An order and what it leaves : the remainder rests unless `capacity` orders rest. -/
def rest (capacity : ℕ) (t : OrderType) (order : Order) (R : Book) : Book :=
  if 0 < order.quantity ∧ R.size < capacity then Function.update R t (insert t order (R t)) else R

/-- One incoming order. -/
def process (capacity lower upper : ℕ) (id : ℕ) (R : Book) (order : Order) :
    Book × List Execution :=
  let s := order.type.opposite
  if order.executionType = .market then
    let f := fill s (fun _ => True) id order (R s)
    (Function.update R s f.opposite, f.executions)
  else if ¬(lower ≤ order.price ∧ order.price ≤ upper) then (R, [])
  else
    let f := fill s (fun p => better s p order.price) id order (R s)
    (rest capacity order.type f.order (Function.update R s f.opposite), f.executions)

/-- The two lists, the next trade id and everything published so far. -/
structure State where
  book : Book
  tradeId : ℕ
  published : List Execution

/-- One incoming order. -/
def State.step (capacity lower upper : ℕ) (st : State) (order : Order) : State :=
  let r := process capacity lower upper st.tradeId st.book order
  ⟨r.1, add64 st.tradeId r.2.length, st.published ++ r.2⟩

/-- A sequence of incoming orders. -/
def State.run (capacity lower upper : ℕ) (st : State) (orders : List Order) : State :=
  orders.foldl (State.step capacity lower upper) st

theorem State.run_append (capacity lower upper : ℕ) (st : State) (done : List Order)
    (order : Order) : st.run capacity lower upper (done ++ [order]) =
      (st.run capacity lower upper done).step capacity lower upper order := by
  simp [State.run]

/-- No resting orders, and the first trade id. -/
def State.init : State :=
  ⟨fun _ => [], 1, []⟩

/-- The resting orders at one price, first to last. -/
def Book.at (R : Book) (p : ℕ) : List Order :=
  (R .buy ++ R .sell).filter fun o => o.price = p

end PriceTime

end TradeX
