import TradeX.Oms
import TradeX.Dispatcher

/-!
# The order management system and the engine

The thread of the order management system and the threads of the groups, with what they
share : the queues of orders and the prices in `MarketState`. The first thread goes round its
loop : it takes a client order if there is one, reads trades from the rings, and looks at
the slots of `last_price` one after the other. The orders it dispatches wait in `outbox`
until the queue of their group has room; until then it does nothing else.

A group's thread takes an order and processes it on its own books. The trades it makes are
then published and their prices stored, one store after each trade, and the other threads
may come in between. If the call faults, what it has published before is left open, but for
the symbol. What the rings give the first thread is left open too.
-/

namespace TradeX

/-- Where `listenForClientOrder` is : before it pops an order, at the ring of a group, or at a
slot. -/
inductive OmsPc
  | receive
  | consume (group : ℕ)
  | poll (slot : ℕ)
  deriving DecidableEq

/-- A group's thread : the trades of the order it is at that it has not published, and the
one whose price it has not stored. -/
structure GroupThread where
  processor : GroupProcessor
  pending : List Trade
  unstored : Option Trade
  halted : Bool

/-- `executed` are the trades that have been published, and `lastTrade` says which trade's
price a slot holds. -/
structure System where
  oms : Oms
  pc : OmsPc
  outbox : List Order
  groups : ℕ → GroupThread
  lastPrice : ℕ → ℕ
  lastTrade : ℕ → Option Trade
  executed : List Trade

namespace System

/-- The start, with groups that have been initialised. -/
def start (oms : Oms) (groups : ℕ → GroupProcessor) : System where
  oms := oms
  pc := .receive
  outbox := []
  groups i := ⟨groups i, [], none, false⟩
  lastPrice _ := 0
  lastTrade _ := none
  executed := []

/-- What a thread does next, and what it is given. -/
inductive Action
  | receive (newOrder : Option ClientOrder)
  | consume (trade : Option Trade)
  | poll
  | enqueue
  | take (i : Fin groupCount)
  | fault (i : Fin groupCount) (published : List Trade)
  | publish (i : Fin groupCount)
  | store (i : Fin groupCount)

/-- The first thread goes on, with the orders it has dispatched. -/
def goOn (sys : System) (oms : Oms) (pc : OmsPc) : System :=
  { sys with
    oms := oms
    pc := pc
    outbox := (oms.dispatched.drop sys.oms.dispatched.length).map fun d => d.order }

/-- Where the loop over the rings goes after group `g`. -/
def afterConsume (g : ℕ) : OmsPc :=
  if g + 1 < groupCount then .consume (g + 1) else .poll 0

/-- Where the loop over the slots goes after a slot. -/
def afterPoll (slot : ℕ) : OmsPc :=
  if slot + 1 < maxSymbols then .poll (slot + 1) else .receive

/-- A step of the first thread when nothing waits to be enqueued. -/
def omsStep (std : StdHeap ClientOrder) (sys : System) : Action → Option System
  | .receive newOrder =>
    match sys.pc, newOrder with
    | .receive, some newOrder => some (sys.goOn (sys.oms.receive std newOrder) (.consume 0))
    | .receive, none => some (sys.goOn sys.oms (.consume 0))
    | _, _ => none
  | .consume trade =>
    match sys.pc, trade with
    | .consume g, some t => (sys.oms.checkFill t).toOption.map fun oms => sys.goOn oms (.consume g)
    | .consume g, none => some (sys.goOn sys.oms (afterConsume g))
    | _, _ => none
  | .poll =>
    match sys.pc with
    | .poll slot =>
      some (sys.goOn (sys.oms.pollPrice std slot (sys.lastPrice slot)) (afterPoll slot))
    | _ => none
  | _ => none

/-- A try of `dispatch_order` to enqueue the first order that waits. -/
def enqueue (sys : System) : Option System :=
  match sys.outbox with
  | [] => none
  | order :: outbox =>
    let i := MatchingEngineDispatcher.groupOf order.symbolId
    let g := sys.groups i
    match g.processor.groupQueue.push order with
    | .error _ => none
    | .ok (accepted, queue) => some { sys with
        groups := Function.update sys.groups i
          { g with processor := { g.processor with groupQueue := queue } }
        outbox := if accepted then outbox else order :: outbox }

/-- A group's thread goes on. -/
def setGroup (sys : System) (i : ℕ) (g : GroupThread) : System :=
  { sys with groups := Function.update sys.groups i g }

/-- A pass of the loop of a group's thread. -/
def take (sys : System) (i : ℕ) : Option System :=
  let g := sys.groups i
  if g.halted ∨ g.pending ≠ [] ∨ g.unstored ≠ none then none
  else
    match g.processor.step with
    | .error _ => none
    | .ok processor => some (sys.setGroup i { g with
        processor := processor
        pending := (processor.published.drop g.processor.published.length).map fun e => e.trade })

/-- A pass that faults, after it has made trades of the order's symbol. -/
def fault (sys : System) (i : ℕ) (published : List Trade) : Option System :=
  let g := sys.groups i
  if g.halted ∨ g.pending ≠ [] ∨ g.unstored ≠ none then none
  else
    match g.processor.step, g.processor.groupQueue.pop with
    | .error _, .ok (some (order, _)) =>
      if ∀ t ∈ published, t.symbolId = order.symbolId then
        some (sys.setGroup i { g with pending := published, halted := true })
      else none
    | _, _ => none

/-- `publish_trade`. -/
def publish (sys : System) (i : ℕ) : Option System :=
  let g := sys.groups i
  match g.pending, g.unstored with
  | t :: pending, none => some
      { sys.setGroup i { g with pending := pending, unstored := some t } with
      executed := sys.executed ++ [t] }
  | _, _ => none

/-- The store to `last_price` that follows. -/
def store (sys : System) (i : ℕ) : Option System :=
  let g := sys.groups i
  match g.unstored with
  | some t => some { sys.setGroup i { g with unstored := none } with
      lastPrice := Function.update sys.lastPrice (t.symbolId % maxSymbols) t.price
      lastTrade := Function.update sys.lastTrade (t.symbolId % maxSymbols) (some t) }
  | none => none

/-- A step of a thread, if it can be taken. -/
def step (std : StdHeap ClientOrder) (sys : System) (a : Action) : Option System :=
  match a with
  | .enqueue => sys.enqueue
  | .take i => sys.take i
  | .fault i published => sys.fault i published
  | .publish i => sys.publish i
  | .store i => sys.store i
  | _ => if sys.outbox = [] then sys.omsStep std a else none

/-- Steps in any order. -/
def run (std : StdHeap ClientOrder) (sys : System) (actions : List Action) : Option System :=
  actions.foldlM (step std) sys

end System

end TradeX
