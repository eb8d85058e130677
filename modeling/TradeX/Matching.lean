import TradeX.OrderBook

/-!
# The matching loops

`GroupProcessor::process_order` and the functions it calls, on the book the order's symbol
selects. Every `publish_trade` of the source is followed at once by the store of the
trade's price as the symbol's last price; the pair is recorded as one `Execution`, with
the incoming and the resting order that produced it, and a call returns its executions in
order. The four loops of the source are one loop with the resting side and the loop's
price guard as parameters.

The loops of the source need not end; `matchLoop` takes fuel, and `processOrder` gives it
one more than the orders in the pool and the units of the incoming order. A pass removes
an order or fills units of the incoming one, or it repeats the state it started from.
-/

namespace TradeX

/-- A published trade, with the orders it executed : the incoming order as it was when the
trade was made, and the order at the head of the level, taken for one of side `side`. -/
structure Execution where
  trade : Trade
  side : OrderType
  incoming : Order
  resting : Order
  deriving DecidableEq, Repr

/-- The trade of `qty` units between an incoming order and a resting order of side `s`. -/
def execute (s : OrderType) (tradeId price qty : ℕ) (order head : Order) : Execution where
  trade :=
    { tradeId := tradeId
      timestampNs := order.timestamp
      price := price
      buyOrderId := match s with
        | .buy => head.clientOrderId
        | .sell => order.clientOrderId
      sellOrderId := match s with
        | .buy => order.clientOrderId
        | .sell => head.clientOrderId
      symbolId := order.symbolId
      quantity := qty }
  side := s
  incoming := order
  resting := head

/-- The order whose id the trade carries as the buyer's. -/
def Execution.buyer (e : Execution) : Order :=
  match e.side with
  | .buy => e.resting
  | .sell => e.incoming

/-- The order whose id the trade carries as the seller's. -/
def Execution.seller (e : Execution) : Order :=
  match e.side with
  | .buy => e.incoming
  | .sell => e.resting

/-- What a matching loop ends with : the book, its executions, and the incoming order with
its remaining quantity, or nothing if the loop returned on a partial fill of the head. -/
structure MatchResult where
  book : OrderBook
  executions : List Execution
  remainder : Option Order

/-- `last_price` after the stores that follow some trades, each at the slot
`symbol_id & SYMBOL_MASK`. -/
def storeTrades (lastPrice : ℕ → ℕ) (trades : List Trade) : ℕ → ℕ :=
  trades.foldl (fun m t => Function.update m (t.symbolId % maxSymbols) t.price) lastPrice

/-- `next_trade_id++`. -/
def nextTradeId (id : ℕ) : ℕ :=
  add64 id 1

/-- The loop of `process_buy`, `process_sell`, `process_market_buy` and
`process_market_sell`, against the resting orders of side `s`, while the best price passes
`guard`. -/
def matchLoop (s : OrderType) (guard : ℕ → Bool) :
    ℕ → ℕ → ℕ → OrderBook → Order → Except Fault MatchResult
  | 0, _, _, _, _ => .error .nonTermination
  | fuel + 1, tradeId, best, book, order =>
    if 0 < order.quantity ∧ 0 < book.getTotalQty s ∧ guard best then do
      let head ← book.headAt best
      if order.quantity < head.quantity then
        let (_, book) ← book.modifyQuantity best (head.quantity - order.quantity)
        .ok ⟨book.decreaseTotalQty s order.quantity,
          [execute s tradeId best order.quantity order head], none⟩
      else
        let (_, book) ← book.removeOrder s best
        let (best', book) ← book.bestprice s
        let r ← matchLoop s guard fuel (nextTradeId tradeId) best' book
          { order with quantity := order.quantity - head.quantity }
        .ok { r with executions := execute s tradeId best head.quantity order head :: r.executions }
    else .ok ⟨book, [], some order⟩

/-- Fuel for a loop on `book` with `order`. -/
def matchFuel (book : OrderBook) (order : Order) : ℕ :=
  book.pool.used + order.quantity + 1

/-- A book and the executions of a call. -/
abbrev Processed := OrderBook × List Execution

/-- `process_buy` (`t = .buy`) and `process_sell` (`t = .sell`). -/
def processLimit (t : OrderType) (tradeId : ℕ) (book : OrderBook) (order : Order) :
    Except Fault Processed :=
  if book.getTotalQty t.opposite = 0 then do
    let (_, book) ← book.addOrder t order
    .ok (book, [])
  else do
    let (best, book) ← book.bestprice t.opposite
    if ¬better t.opposite best order.price then
      let (_, book) ← book.addOrder t order
      .ok (book, [])
    else
      let (best, book) ← book.bestprice t.opposite
      let r ← matchLoop t.opposite (fun p => better t.opposite p order.price)
        (matchFuel book order) tradeId best book order
      match r.remainder with
      | none => .ok (r.book, r.executions)
      | some order =>
        if 0 < order.quantity then
          let (_, book) ← r.book.addOrder t order
          .ok (book, r.executions)
        else .ok (r.book, r.executions)

/-- `process_buy`. -/
def processBuy : ℕ → OrderBook → Order → Except Fault Processed :=
  processLimit .buy

/-- `process_sell`. -/
def processSell : ℕ → OrderBook → Order → Except Fault Processed :=
  processLimit .sell

/-- `process_market_buy` (`t = .buy`) and `process_market_sell` (`t = .sell`). -/
def processMarket (t : OrderType) (tradeId : ℕ) (book : OrderBook) (order : Order) :
    Except Fault Processed :=
  if book.getTotalQty t.opposite = 0 then .ok (book, [])
  else do
    let (best, book) ← book.bestprice t.opposite
    let r ← matchLoop t.opposite (fun p => book.isPriceValid p) (matchFuel book order) tradeId
      best book order
    .ok (r.book, r.executions)

/-- `process_market_buy`. -/
def processMarketBuy : ℕ → OrderBook → Order → Except Fault Processed :=
  processMarket .buy

/-- `process_market_sell`. -/
def processMarketSell : ℕ → OrderBook → Order → Except Fault Processed :=
  processMarket .sell

/-- `process_order`, on the book of the order's symbol. -/
def processOrder (tradeId : ℕ) (book : OrderBook) (order : Order) : Except Fault Processed :=
  if order.executionType = .market then
    match order.type with
    | .buy => processMarketBuy tradeId book order
    | .sell => processMarketSell tradeId book order
  else if ¬book.isPriceValid order.price then .ok (book, [])
  else
    match order.type with
    | .buy => processBuy tradeId book order
    | .sell => processSell tradeId book order

/-- A book, the next trade id and everything published so far. -/
structure EngineState where
  book : OrderBook
  tradeId : ℕ
  published : List Execution

/-- One `process_order` call. -/
def EngineState.step (st : EngineState) (order : Order) : Except Fault EngineState := do
  let (book, executions) ← processOrder st.tradeId st.book order
  .ok ⟨book, add64 st.tradeId executions.length, st.published ++ executions⟩

/-- A sequence of `process_order` calls. -/
def EngineState.run (st : EngineState) (orders : List Order) : Except Fault EngineState :=
  orders.foldlM EngineState.step st

/-- A fresh book, in storage that holds `nodes`, with totals zero and the first trade id
of a group. -/
def EngineState.init (nodes : ℕ → OrderNode) (poolSize lower upper : ℕ) : EngineState where
  book := OrderBook.new ⟨nodes, fun _ => 0⟩ poolSize lower upper
  tradeId := 1
  published := []

end TradeX
