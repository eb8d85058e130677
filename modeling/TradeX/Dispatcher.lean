import TradeX.Matching
import TradeX.RingBuffer

/-!
# The dispatcher and its groups

`MatchingEngineDispatcher` with its `GROUP_COUNT` `GroupProcessor`s. `dispatch_order` puts
an order into the queue of the group that the high bits of its symbol select, and tries
again while the queue is full; `start_group_thread` takes the orders from the queue and
processes each on the book that the low bits select. The threads take turns in any order,
and a group's thread does nothing to the other group.
-/

namespace TradeX

/-- `books` holds a pointer for each symbol of a group, null where there is no book. -/
structure OrderBookManager where
  books : ℕ → Option OrderBook
  maxBooks : ℕ

namespace OrderBookManager

/-- The constructor : no book has been added. -/
def new (numberOfBooks : ℕ) : OrderBookManager :=
  ⟨fun _ => none, numberOfBooks⟩

/-- `get_book`. -/
def get (m : OrderBookManager) (symbolId : ℕ) : Except Fault OrderBook :=
  if m.maxBooks ≤ symbolId then
    .error (.outOfRange "Symbol ID exceeds limits or book not initialized.")
  else
    match m.books symbolId with
    | none => .error (.outOfRange "Symbol ID exceeds limits or book not initialized.")
    | some book => .ok book

/-- A write through the reference `get` returns. -/
def set (m : OrderBookManager) (symbolId : ℕ) (book : OrderBook) : OrderBookManager :=
  { m with books := Function.update m.books symbolId (some book) }

/-- `add_book`. -/
def addBook (m : OrderBookManager) (mem : Storage) (symbolId poolSize lowerPrice upperPrice : ℕ) :
    Except Fault OrderBookManager :=
  if m.maxBooks ≤ symbolId then
    .error (.outOfRange "Symbol ID exceeds the number of symbols managed.")
  else .ok (m.set symbolId (.new mem poolSize lowerPrice upperPrice))

end OrderBookManager

/-- `published` is what the group has put into its trade ring. -/
structure GroupProcessor where
  bookmanager : OrderBookManager
  groupQueue : RingBuffer Order
  nextTradeId : ℕ
  published : List Execution

namespace GroupProcessor

/-- `process_order`. -/
def processOrder (g : GroupProcessor) (order : Order) : Except Fault GroupProcessor := do
  let symbol := order.symbolId % maxSymbols
  let book ← g.bookmanager.get symbol
  let (book, executions) ← TradeX.processOrder g.nextTradeId book order
  .ok { g with
    bookmanager := g.bookmanager.set symbol book
    nextTradeId := add64 g.nextTradeId executions.length
    published := g.published ++ executions }

/-- A pass of the loop of `start_group_thread`. -/
def step (g : GroupProcessor) : Except Fault GroupProcessor := do
  match ← g.groupQueue.pop with
  | none => .ok g
  | some (order, queue) => GroupProcessor.processOrder { g with groupQueue := queue } order

end GroupProcessor

/-- The groups, and the orders that are still to be dispatched. -/
structure MatchingEngineDispatcher where
  groups : ℕ → GroupProcessor
  orders : List Order

namespace MatchingEngineDispatcher

/-- The loop of `initialize_engine` for the group with `overhead`. -/
def addBooks (mem : ℕ → Storage) (lowerLimits upperLimits : ℕ → ℕ) (overhead : ℕ) :
    Except Fault OrderBookManager :=
  (List.range maxSymbols).foldlM (fun m symbolId =>
      m.addBook (mem (overhead + symbolId)) symbolId 10000 (lowerLimits (overhead + symbolId))
        (upperLimits (overhead + symbolId)))
    (.new (1 <<< symbolBits))

/-- A group of an engine that has been initialised, with an empty queue. -/
def newGroup (buffer : ℕ → Order) (capacity : ℕ) (mem : ℕ → Storage)
    (lowerLimits upperLimits : ℕ → ℕ) (i : ℕ) : Except Fault GroupProcessor := do
  let m ← addBooks mem lowerLimits upperLimits (i <<< symbolBits)
  .ok ⟨m, .new buffer capacity, 1, []⟩

/-- The constructor and `initialize_engine`, before `orders` are dispatched. -/
def initializeEngine (buffer : ℕ → Order) (capacity : ℕ) (mem : ℕ → Storage)
    (lowerLimits upperLimits : ℕ → ℕ) (orders : List Order) :
    Except Fault MatchingEngineDispatcher := do
  let g₀ ← newGroup buffer capacity mem lowerLimits upperLimits 0
  let g₁ ← newGroup buffer capacity mem lowerLimits upperLimits 1
  .ok ⟨fun i => if i = 0 then g₀ else g₁, orders⟩

/-- The group of an order. -/
def groupOf (symbolId : ℕ) : ℕ :=
  let group := (symbolId >>> symbolBits) % groupCount
  if groupCount ≤ group then 0 else group

/-- A call of `enqueue_order` by `dispatch_order`, for the next order. -/
def dispatchOrder (d : MatchingEngineDispatcher) : Except Fault MatchingEngineDispatcher :=
  match d.orders with
  | [] => .ok d
  | order :: orders => do
    let group := groupOf order.symbolId
    let (accepted, queue) ← (d.groups group).groupQueue.push order
    .ok
      { groups := Function.update d.groups group { d.groups group with groupQueue := queue }
        orders := if accepted then orders else order :: orders }

/-- The thread that dispatches orders, and those of the groups. -/
inductive Thread
  | dispatcher
  | group (i : Fin groupCount)
  deriving DecidableEq

/-- A thread takes a step on its own part of the engine. -/
def step (d : MatchingEngineDispatcher) : Thread → Except Fault MatchingEngineDispatcher
  | .dispatcher => d.dispatchOrder
  | .group i => do
    let g ← (d.groups i).step
    .ok { d with groups := Function.update d.groups i g }

/-- The threads take steps in any order. -/
def run (d : MatchingEngineDispatcher) (schedule : List Thread) :
    Except Fault MatchingEngineDispatcher :=
  schedule.foldlM step d

/-- All orders have been dispatched and the queues are empty. -/
def Complete (d : MatchingEngineDispatcher) : Prop :=
  d.orders = [] ∧ ∀ i < groupCount, (d.groups i).groupQueue.pop = .ok none

/-- What the groups have published. -/
def published (d : MatchingEngineDispatcher) : List Execution :=
  (List.range groupCount).flatMap fun i => (d.groups i).published

end MatchingEngineDispatcher

end TradeX
