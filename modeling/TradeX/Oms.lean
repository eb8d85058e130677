import TradeX.OrderBook
import TradeX.Library.StdHeap
import Mathlib.Data.Nat.Bitwise

/-!
# The order management system

The `OrderManagementSystem` of `oms.cpp`, as the thread `listenForClientOrder` runs it :
what it does with a client order it has popped (`receive`), with a trade it has read
(`checkFill`) and with a price it finds in a slot of the shared memory (`pollPrice`).

The calls of `dispatch_order` are recorded in `dispatched`, each with the client order it
was made for and the place of the source that made it. Every such call follows one reading
of the clock, so the readings are numbered by the calls; fields that the source leaves
uninitialised hold what `uninit` says.
-/

namespace TradeX

/-- 32-bit addition. -/
def add32 (a b : ℕ) : ℕ :=
  (a + b) % 2 ^ 32

/-- 32-bit subtraction. -/
def sub32 (a b : ℕ) : ℕ :=
  (a + (2 ^ 32 - b % 2 ^ 32)) % 2 ^ 32

/-- The execution type of a client order. -/
inductive ClientOrderType
  | market
  | limit
  | stopLoss
  | iceberg
  deriving DecidableEq, Repr

/-- `symbol` holds the characters before the terminating zero. -/
structure ClientOrder where
  clientOrderId : ℕ
  price : ℕ
  triggerPrice : ℕ
  symbol : List UInt8
  symbolId : ℕ
  traderId : ℕ
  type : OrderType
  quantity : ℕ
  displayQuantity : ℕ
  filledQuantity : ℕ
  executionType : ClientOrderType
  isActive : Bool
  deriving DecidableEq, Repr

/-- The value a map inserts under a key it does not have. -/
def ClientOrder.zero : ClientOrder :=
  ⟨0, 0, 0, [], 0, 0, .buy, 0, 0, 0, .market, false⟩

/-- `StopLossContainer` : the heaps of a slot. -/
structure StopLossContainer where
  sellStops : List ClientOrder
  buyStops : List ClientOrder

/-- The places that call `dispatch_order`. -/
inductive DispatchSite
  | market
  | limit
  | stopLoss
  | slice
  deriving DecidableEq, Repr

/-- A call of `dispatch_order`, and the client order as the system had it then. -/
structure Dispatch where
  site : DispatchSite
  client : ClientOrder
  order : Order
  deriving DecidableEq, Repr

/-- `OrderManagementSystem`. `clock` and `uninit` give what the dispatches read from the clock and a
field that was not set, and `dispatched` is what has been dispatched. -/
structure Oms where
  symbolLookupTable : ℕ → ℤ
  nextOmsOrderId : ℕ
  stopLossRegistry : ℕ → StopLossContainer
  lastSeenPrice : ℕ → ℕ
  activeIcebergs : ℕ → Option ClientOrder
  childToParent : ℕ → Option ℕ
  nextChildOrderId : ℕ
  clock : ℕ → ℕ
  uninit : ℕ → ℕ
  dispatched : List Dispatch

/-- `ICEBERG_BIT`. -/
def icebergBit : ℕ := 2 ^ 63

/-- An id has the `ICEBERG_BIT`. -/
def isIceberg (id : ℕ) : Prop :=
  id &&& icebergBit ≠ 0

instance (id : ℕ) : Decidable (isIceberg id) :=
  inferInstanceAs (Decidable (_ ≠ _))

namespace Oms

/-- The constructor : the symbol table it has loaded, and the clock with the time of the
start. -/
def init (symbolLookupTable : ℕ → ℤ) (bootTimestamp : ℕ) (clock uninit : ℕ → ℕ) :
    Oms where
  symbolLookupTable := symbolLookupTable
  nextOmsOrderId := bootTimestamp
  stopLossRegistry _ := ⟨[], []⟩
  lastSeenPrice _ := 0
  activeIcebergs _ := none
  childToParent _ := none
  nextChildOrderId := icebergBit ||| 1
  clock := clock
  uninit := uninit
  dispatched := []

/-- `get_current_timestamp`. -/
def getCurrentTimestamp (st : Oms) : ℕ :=
  st.clock st.dispatched.length

/-- A call of `dispatch_order`. -/
def dispatch (st : Oms) (site : DispatchSite) (client : ClientOrder) (order : Order) : Oms :=
  { st with dispatched := st.dispatched ++ [⟨site, client, order⟩] }

/-! ## Symbols -/

/-- `toupper` of a signed `char`, in the C locale of glibc. A `char` from -128 to -2 is given as the
byte it is, and -1 is `EOF` and stays. -/
def toupper (c : UInt8) : ℤ :=
  if 97 ≤ c ∧ c ≤ 122 then (c.toNat : ℤ) - 32
  else if c = 255 then -1
  else c.toNat

/-- `find_hash`, the bits of the `int`. -/
def findHash (symbol : List UInt8) : ℕ :=
  (List.range 4).foldl (fun hash i =>
    let charVal : ℕ := match symbol[i]? with
      | some c => ((toupper c - 65 + 1) % 2 ^ 32).toNat
      | none => 0
    (hash <<< 5) % 2 ^ 32 ||| charVal) 0

/-- `find_id`. -/
def findId (st : Oms) (symbol : List UInt8) : ℤ :=
  if 880000 ≤ findHash symbol then -1 else st.symbolLookupTable (findHash symbol)

/-- `find_id`, stored in a `uint32_t`. -/
def findSymbolId (st : Oms) (symbol : List UInt8) : ℕ :=
  (st.findId symbol % 2 ^ 32).toNat

/-! ## Icebergs -/

/-- `active_icebergs[id]`. -/
def iceberg (st : Oms) (id : ℕ) : ClientOrder :=
  (st.activeIcebergs id).getD .zero

/-- `active_icebergs[id] = order`. -/
def setIceberg (st : Oms) (id : ℕ) (order : ClientOrder) : Oms :=
  { st with activeIcebergs := Function.update st.activeIcebergs id (some order) }

/-- `send_slice`. -/
def sendSlice (st : Oms) (parentId : ℕ) : Oms :=
  let parent := st.iceberg parentId
  let st := st.setIceberg parentId parent
  if ¬parent.isActive then st
  else
    let remaining := sub32 parent.quantity parent.filledQuantity
    if remaining = 0 then st.setIceberg parentId { parent with isActive := false }
    else
      let childId := st.nextChildOrderId
      let st := { st with
        nextChildOrderId := add64 childId 1
        childToParent := Function.update st.childToParent childId (some parentId) }
      st.dispatch .slice parent
        { orderId := childId
          executionType := .limit
          price := parent.price
          timestamp := st.getCurrentTimestamp
          traderId := parent.traderId
          type := parent.type
          symbolId := parent.symbolId
          quantity := min parent.displayQuantity remaining
          clientOrderId := childId }

/-- `process_iceberg_leg`. -/
def processIcebergLeg (st : Oms) (childId tradedQty : ℕ) : Except Fault Oms :=
  match st.childToParent childId with
  | none => .ok st
  | some parentId =>
    let parent := st.iceberg parentId
    let filled := add32 parent.filledQuantity tradedQty
    let st := st.setIceberg parentId { parent with filledQuantity := filled }
    if parent.displayQuantity = 0 then .error .divisionByZero
    else if filled % parent.displayQuantity = 0 ∨ filled = parent.quantity then
      .ok ({ st with
        childToParent := Function.update st.childToParent childId none }.sendSlice parentId)
    else .ok st

/-- One `if` of `check_fill`. -/
def checkLeg (st : Oms) (id tradedQty : ℕ) : Except Fault Oms :=
  if isIceberg id then st.processIcebergLeg id tradedQty else .ok st

/-- `check_fill`. -/
def checkFill (st : Oms) (trade : Trade) : Except Fault Oms :=
  if ¬isIceberg trade.buyOrderId ∧ ¬isIceberg trade.sellOrderId then .ok st
  else do
    let st ← st.checkLeg trade.buyOrderId trade.quantity
    st.checkLeg trade.sellOrderId trade.quantity

/-! ## Stop losses -/

/-- `MaxTrigger`. -/
def maxTrigger (a b : ClientOrder) : Bool :=
  a.triggerPrice < b.triggerPrice

/-- `MinTrigger`. -/
def minTrigger (a b : ClientOrder) : Bool :=
  a.triggerPrice > b.triggerPrice

section StopLoss

variable (std : StdHeap ClientOrder)

/-- `registerStopLoss`. -/
def registerStopLoss (st : Oms) (ord : ClientOrder) : Oms :=
  let slot := ord.symbolId % maxSymbols
  let container := st.stopLossRegistry slot
  let container := match ord.type with
    | .buy => { container with
        buyStops := std.pushHeap minTrigger (container.buyStops ++ [ord]) }
    | .sell => { container with
        sellStops := std.pushHeap maxTrigger (container.sellStops ++ [ord]) }
  { st with stopLossRegistry := Function.update st.stopLossRegistry slot container }

/-- A loop of `checkAndTriggerSL` : the stops it takes from the heap while the front one is
hit, and the heap it leaves. A heap of `n` stops takes at most `n` passes. -/
def takeStops (comp : ClientOrder → ClientOrder → Bool) (hit : ClientOrder → Bool) :
    ℕ → List ClientOrder → List ClientOrder × List ClientOrder
  | 0, stops => ([], stops)
  | _ + 1, [] => ([], [])
  | n + 1, front :: stops =>
    if hit front then
      let (taken, left) := takeStops comp hit n (std.popHeap comp (front :: stops)).dropLast
      (front :: taken, left)
    else ([], front :: stops)

/-- The body of the loops of `checkAndTriggerSL`. -/
def triggerStop (st : Oms) (stop : ClientOrder) : Oms :=
  { st with nextOmsOrderId := add64 st.nextOmsOrderId 1 }.dispatch .stopLoss stop
    { orderId := st.nextOmsOrderId
      executionType := .limit
      price := stop.price
      timestamp := st.getCurrentTimestamp
      traderId := stop.traderId
      type := stop.type
      symbolId := st.findSymbolId stop.symbol
      quantity := stop.quantity
      clientOrderId := stop.clientOrderId }

/-- `checkAndTriggerSL`. -/
def checkAndTriggerSL (st : Oms) (slot currentLtp : ℕ) : Oms :=
  let container := st.stopLossRegistry slot
  let sells := takeStops std maxTrigger (fun stop => currentLtp ≤ stop.triggerPrice)
    container.sellStops.length container.sellStops
  let buys := takeStops std minTrigger (fun stop => currentLtp ≥ stop.triggerPrice)
    container.buyStops.length container.buyStops
  let st := { st with
    stopLossRegistry := Function.update st.stopLossRegistry slot ⟨sells.2, buys.2⟩ }
  (sells.1 ++ buys.1).foldl triggerStop st

/-- A pass of the loop over the slots, which finds `currentLtp` in the slot. -/
def pollPrice (st : Oms) (slot currentLtp : ℕ) : Oms :=
  if currentLtp ≠ st.lastSeenPrice slot then
    let st := st.checkAndTriggerSL std slot currentLtp
    { st with lastSeenPrice := Function.update st.lastSeenPrice slot currentLtp }
  else st

/-! ## Client orders -/

/-- The MARKET branch. It does not set a price. -/
def sendMarket (st : Oms) (newOrder : ClientOrder) : Oms :=
  { st with nextOmsOrderId := add64 st.nextOmsOrderId 1 }.dispatch .market newOrder
    { orderId := st.nextOmsOrderId
      executionType := .market
      price := st.uninit st.dispatched.length
      timestamp := st.getCurrentTimestamp
      traderId := newOrder.traderId
      type := newOrder.type
      symbolId := newOrder.symbolId
      quantity := newOrder.quantity
      clientOrderId := newOrder.clientOrderId }

/-- The LIMIT branch. -/
def sendLimit (st : Oms) (newOrder : ClientOrder) : Oms :=
  if newOrder.price ≠ 0 then
    { st with nextOmsOrderId := add64 st.nextOmsOrderId 1 }.dispatch .limit newOrder
      { orderId := st.nextOmsOrderId
        executionType := .limit
        price := newOrder.price
        timestamp := st.getCurrentTimestamp
        traderId := newOrder.traderId
        type := newOrder.type
        symbolId := newOrder.symbolId
        quantity := newOrder.quantity
        clientOrderId := newOrder.clientOrderId }
  else st

/-- A client order as `listenForClientOrder` sees it once it has looked up its symbol. -/
def withSymbolId (st : Oms) (newOrder : ClientOrder) : ClientOrder :=
  { newOrder with symbolId := st.findSymbolId newOrder.symbol }

/-- What `listenForClientOrder` does with an order it has popped. -/
def receive (st : Oms) (newOrder : ClientOrder) : Oms :=
  let newOrder := st.withSymbolId newOrder
  if newOrder.symbolId ≠ 2 ^ 32 - 1 then
    match newOrder.executionType with
    | .iceberg =>
      (st.setIceberg newOrder.clientOrderId newOrder).sendSlice newOrder.clientOrderId
    | .stopLoss => st.registerStopLoss std newOrder
    | .market => st.sendMarket newOrder
    | .limit => st.sendLimit newOrder
  else st

/-- What the thread is given : an order it pops, a trade it reads, a price it finds in a
slot. -/
inductive Event
  | order (newOrder : ClientOrder)
  | trade (t : Trade)
  | price (slot currentLtp : ℕ)

/-- What the thread does with what it is given. -/
def step (st : Oms) : Event → Except Fault Oms
  | .order newOrder => .ok (st.receive std newOrder)
  | .trade t => st.checkFill t
  | .price slot currentLtp => .ok (st.pollPrice std slot currentLtp)

/-- The thread is given one thing after the other. -/
def run (st : Oms) (events : List Event) : Except Fault Oms :=
  events.foldlM (step std) st

end StopLoss

end Oms

end TradeX
