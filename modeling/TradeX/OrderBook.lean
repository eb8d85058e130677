import TradeX.Order
import Mathlib.Data.List.Sort
import Mathlib.Logic.Function.Basic

/-!
# The order book

`order_book.h`, from the bottom : a pool of nodes with an intrusive free list
(`MemPool`), the queue of a price level as a doubly linked list in that pool
(`PriceQueues`), and the book, an array of price levels shared by the two sides with a
lazily cleaned heap of prices for each side, a map from order ids to nodes and a running
total for each side (`OrderBook`).

The two sides of the source are copies of each other. Here what a side owns is a
`BookSide`, and each pair of copies is one definition with the side as a parameter; the
copies keep their names. A heap is the list of its prices with the top first : `push`
inserts in order and `pop` drops the first.
-/

namespace TradeX

/-- 64-bit addition. -/
def add64 (a b : ℕ) : ℕ :=
  (a + b) % 2 ^ 64

theorem add64_lt (a b : ℕ) : add64 a b < 2 ^ 64 :=
  Nat.mod_lt _ (Nat.two_pow_pos 64)

/-- 64-bit subtraction. -/
def sub64 (a b : ℕ) : ℕ :=
  (a + (2 ^ 64 - b % 2 ^ 64)) % 2 ^ 64

/-! ## The pool -/

/-- `OrderNode`. -/
structure OrderNode where
  order : Order
  next : ℕ
  back : ℕ

/-- `nodes` is the array `malloc` returned; only the entries below `capacity` exist. -/
structure MemPool where
  nodes : ℕ → OrderNode
  freeHead : ℕ
  used : ℕ
  capacity : ℕ

namespace MemPool

/-- The constructor, in storage that holds `raw`. It links every node into the free list
and initialises nothing else. -/
def new (raw : ℕ → OrderNode) (cap : ℕ) : MemPool where
  nodes i :=
    if i < cap - 1 then { raw i with next := i + 1 }
    else if i = cap - 1 then { raw i with next := nullIdx }
    else raw i
  freeHead := 0
  used := 0
  capacity := cap

/-- `get_node`. -/
def getNode (p : MemPool) (idx : ℕ) : Except Fault OrderNode :=
  if idx < p.capacity then .ok (p.nodes idx) else .error .badAccess

/-- A write through the pointer `getNode` returns. -/
def modifyNode (p : MemPool) (idx : ℕ) (f : OrderNode → OrderNode) : Except Fault MemPool :=
  if idx < p.capacity then
    .ok { p with nodes := Function.update p.nodes idx (f (p.nodes idx)) }
  else .error .badAccess

/-- `allocate`. -/
def allocate (p : MemPool) : Except Fault (ℕ × MemPool) :=
  if p.freeHead = nullIdx then .ok (nullIdx, p)
  else do
    let node ← p.getNode p.freeHead
    let p' ← p.modifyNode p.freeHead fun n => { n with next := nullIdx, back := nullIdx }
    .ok (p.freeHead, { p' with freeHead := node.next, used := p.used + 1 })

/-- `deallocate`. -/
def deallocate (p : MemPool) (idx : ℕ) : Except Fault MemPool :=
  if idx = nullIdx then .ok p
  else do
    let p' ← p.modifyNode idx fun n => { n with next := p.freeHead }
    .ok { p' with freeHead := idx, used := p.used - 1 }

end MemPool

/-! ## Price levels -/

/-- `PriceQueues` : the list of the orders at a price. -/
structure PriceQueues where
  head : ℕ
  tail : ℕ
  count : ℕ
  heapEntry : Bool

namespace PriceQueues

/-- The constructor. -/
def empty : PriceQueues :=
  ⟨nullIdx, nullIdx, 0, false⟩

/-- `is_empty`. -/
def isEmpty (q : PriceQueues) : Bool :=
  q.count == 0

/-- `set_heap_entry`. -/
def setHeapEntry (q : PriceQueues) (val : Bool) : PriceQueues :=
  { q with heapEntry := val }

/-- `gethead`. -/
def gethead (q : PriceQueues) (pool : MemPool) : Except Fault Order := do
  let node ← pool.getNode q.head
  .ok node.order

/-- `insert_order`. -/
def insertOrder (q : PriceQueues) (pool : MemPool) (order : Order) :
    Except Fault (ℕ × PriceQueues × MemPool) := do
  let (idx, pool) ← pool.allocate
  if idx = nullIdx then .ok (nullIdx, q, pool)
  else
    let pool ← pool.modifyNode idx fun n => { n with order := order }
    if q.head = nullIdx then
      .ok (idx, { q with head := idx, tail := idx, count := q.count + 1 }, pool)
    else
      let pool ← pool.modifyNode q.tail fun n => { n with next := idx }
      let pool ← pool.modifyNode idx fun n => { n with back := q.tail }
      .ok (idx, { q with tail := idx, count := q.count + 1 }, pool)

/-- The head of the queue after `idx`, whose neighbours are `prev` and `next`, leaves :
the first pointer patch of `removeOrder`. -/
def patchHead (q : PriceQueues) (pool : MemPool) (idx prev next : ℕ) :
    Except Fault (ℕ × MemPool) :=
  if idx = q.head then
    if next = nullIdx then .ok (next, pool)
    else do
      let pool ← pool.modifyNode next fun n => { n with back := nullIdx }
      .ok (next, pool)
  else do
    let pool ← pool.modifyNode prev fun n => { n with next := next }
    .ok (q.head, pool)

/-- The tail of the queue after `idx` leaves : the second pointer patch. -/
def patchTail (q : PriceQueues) (pool : MemPool) (idx prev next : ℕ) :
    Except Fault (ℕ × MemPool) :=
  if idx = q.tail then .ok (prev, pool)
  else if next = nullIdx then .ok (q.tail, pool)
  else do
    let pool ← pool.modifyNode next fun n => { n with back := prev }
    .ok (q.tail, pool)

/-- `remove_order` of a level. -/
def removeOrder (q : PriceQueues) (pool : MemPool) (idx : ℕ) :
    Except Fault (Bool × PriceQueues × MemPool) :=
  if idx = nullIdx then .ok (false, q, pool)
  else do
    let node ← pool.getNode idx
    let (head, pool) ← q.patchHead pool idx node.back node.next
    let (tail, pool) ← q.patchTail pool idx node.back node.next
    let pool ← pool.deallocate idx
    .ok (true, { q with head := head, tail := tail, count := q.count - 1 }, pool)

end PriceQueues

/-! ## The book -/

/-- `p` is at least as good as `q` for a resting order of side `s` : the comparison of
the side's heap. -/
def better : OrderType → ℕ → ℕ → Prop
  | .buy, p, q => q ≤ p
  | .sell, p, q => p ≤ q

instance (s : OrderType) : DecidableRel (better s) := fun p q => by
  cases s <;> exact inferInstanceAs (Decidable (_ ≤ _))

/-- What one side of the book owns : its heap of prices (`next_buy_price`,
`next_sell_price`), the sentinel at its bottom and its running total. -/
structure BookSide where
  nextPrice : List ℕ
  defaultBestPrice : ℕ
  totalQty : ℕ

/-- `OrderBook`. -/
structure OrderBook where
  lowerLimit : ℕ
  upperLimit : ℕ
  numPriceLevels : ℕ
  priceLevels : ℕ → PriceQueues
  side : OrderType → BookSide
  pool : MemPool
  orderMap : ℕ → Option ℕ

/-- What the constructor of a book leaves as it finds it : the nodes of the pool and the
two totals. -/
structure Storage where
  nodes : ℕ → OrderNode
  totalQty : OrderType → ℕ

namespace OrderBook

/-- `default_best_buy_price` and `default_best_sell_price`. -/
def defaultBest (lower upper : ℕ) : OrderType → ℕ
  | .buy => if 0 < lower then lower - 1 else 0
  | .sell => if upper = 2 ^ 64 - 1 then 2 ^ 64 - 1 else upper + 1

/-- The constructor, on memory that holds anything. -/
def new (mem : Storage) (poolSize lower upper : ℕ) : OrderBook where
  lowerLimit := lower
  upperLimit := upper
  numPriceLevels := add64 (sub64 upper lower) 1
  priceLevels _ := PriceQueues.empty
  side s := ⟨[defaultBest lower upper s], defaultBest lower upper s, mem.totalQty s⟩
  pool := MemPool.new mem.nodes poolSize
  orderMap _ := none

/-- `static_cast<int>(price) - lower_limit`, computed in 64 bits and returned as an
`int`. -/
@[irreducible] def priceToIndex (b : OrderBook) (price : ℕ) : ℤ :=
  Int.bmod ((Int.bmod price 0x100000000 - b.lowerLimit) % 0x10000000000000000) 0x100000000

/-- `price_levels[idx]` exists. -/
def hasLevel (b : OrderBook) (idx : ℤ) : Prop :=
  0 ≤ idx ∧ idx < b.numPriceLevels

instance (b : OrderBook) (idx : ℤ) : Decidable (b.hasLevel idx) :=
  inferInstanceAs (Decidable (_ ∧ _))

/-- The subscript of `price_levels[priceToIndex(price)]`. -/
def levelOf (b : OrderBook) (price : ℕ) : Except Fault ℕ :=
  if b.hasLevel (b.priceToIndex price) then .ok (b.priceToIndex price).toNat
  else .error .badAccess

/-- A level changes. -/
def setLevel (b : OrderBook) (i : ℕ) (q : PriceQueues) : OrderBook :=
  { b with priceLevels := Function.update b.priceLevels i q }

/-- A side changes. -/
def setSide (b : OrderBook) (s : OrderType) (t : BookSide) : OrderBook :=
  { b with side := Function.update b.side s t }

/-- `is_price_valid`. -/
def isPriceValid (b : OrderBook) (price : ℕ) : Prop :=
  b.lowerLimit ≤ price ∧ price ≤ b.upperLimit

instance (b : OrderBook) (price : ℕ) : Decidable (b.isPriceValid price) :=
  inferInstanceAs (Decidable (_ ∧ _))

/-! ### Best prices -/

/-- The loop of `bestbuyprice` and `bestsellprice` on the heap of side `s` : while the top
is not the sentinel and its level is empty, the level's flag is cleared and the top
popped. The heap of a book always has a top; `top` of an empty heap is a fault. -/
def cleanTop (b : OrderBook) (s : OrderType) :
    List ℕ → (ℕ → PriceQueues) → Except Fault (List ℕ × (ℕ → PriceQueues))
  | [], _ => .error .badAccess
  | p :: rest, levels =>
    if p = (b.side s).defaultBestPrice then .ok (p :: rest, levels)
    else do
      let i ← b.levelOf p
      if (levels i).isEmpty then
        b.cleanTop s rest (Function.update levels i ((levels i).setHeapEntry false))
      else .ok (p :: rest, levels)

/-- `bestbuyprice` and `bestsellprice`. -/
def bestprice (b : OrderBook) (s : OrderType) : Except Fault (ℕ × OrderBook) := do
  let (heap, levels) ← b.cleanTop s (b.side s).nextPrice b.priceLevels
  match heap with
  | [] => .error .badAccess
  | top :: _ =>
    .ok (top, { b.setSide s { b.side s with nextPrice := heap } with priceLevels := levels })

/-- `bestbuyprice`. -/
def bestbuyprice (b : OrderBook) : Except Fault (ℕ × OrderBook) :=
  b.bestprice .buy

/-- `bestsellprice`. -/
def bestsellprice (b : OrderBook) : Except Fault (ℕ × OrderBook) :=
  b.bestprice .sell

/-! ### Adding -/

/-- `addBuyOrder` and `addSellOrder`. -/
def addOrder (b : OrderBook) (s : OrderType) (order : Order) : Except Fault (Bool × OrderBook) :=
  let index := b.priceToIndex order.price
  if ¬b.hasLevel index then .ok (false, b)
  else do
    let i := index.toNat
    let q := b.priceLevels i
    let (idx, q', pool) ← q.insertOrder b.pool order
    if idx = nullIdx then .ok (false, { b.setLevel i q' with pool := pool })
    else
      let side := b.side s
      let heap :=
        if q.isEmpty ∧ q.heapEntry = false then
          side.nextPrice.orderedInsert (better s) order.price
        else side.nextPrice
      .ok (true,
        { (b.setLevel i (q'.setHeapEntry true)).setSide s
            { side with nextPrice := heap, totalQty := add64 side.totalQty order.quantity } with
          pool := pool
          orderMap := Function.update b.orderMap order.orderId (some idx) })

/-- `addBuyOrder`. -/
def addBuyOrder (b : OrderBook) (order : Order) : Except Fault (Bool × OrderBook) :=
  b.addOrder .buy order

/-- `addSellOrder`. -/
def addSellOrder (b : OrderBook) (order : Order) : Except Fault (Bool × OrderBook) :=
  b.addOrder .sell order

/-! ### Removing -/

/-- `findOrder`. -/
def findOrder (b : OrderBook) (id : ℕ) : Except Fault (Option Order) :=
  match b.orderMap id with
  | none => .ok none
  | some idx => do
    let node ← b.pool.getNode idx
    .ok (some node.order)

/-- The order at the head of the level of `price`. -/
def headAt (b : OrderBook) (price : ℕ) : Except Fault Order := do
  let i ← b.levelOf price
  (b.priceLevels i).gethead b.pool

/-- Removes the order at the head of the level of `price`. -/
def removeOrder (b : OrderBook) (s : OrderType) (price : ℕ) :
    Except Fault (Bool × OrderBook) := do
  let i ← b.levelOf price
  if (b.priceLevels i).isEmpty then .ok (false, b)
  else
    let order ← (b.priceLevels i).gethead b.pool
    match b.orderMap order.orderId with
    | none => .ok (false, b)
    | some index =>
      let (removed, q, pool) ← (b.priceLevels i).removeOrder b.pool index
      let b' := { b.setLevel i q with pool := pool }
      if removed then
        .ok (true,
          { b'.setSide s { b.side s with totalQty := sub64 (b.side s).totalQty order.quantity } with
            orderMap := Function.update b.orderMap order.orderId none })
      else .ok (false, b')

/-- `removeBuyOrder`. -/
def removeBuyOrder (b : OrderBook) (price : ℕ) : Except Fault (Bool × OrderBook) :=
  b.removeOrder .buy price

/-- `removeSellOrder`. -/
def removeSellOrder (b : OrderBook) (price : ℕ) : Except Fault (Bool × OrderBook) :=
  b.removeOrder .sell price

/-- `cancelOrder`. -/
def cancelOrder (b : OrderBook) (id : ℕ) : Except Fault (Bool × OrderBook) :=
  match b.orderMap id with
  | none => .ok (false, b)
  | some idx => do
    let node ← b.pool.getNode idx
    let i ← b.levelOf node.order.price
    let (removed, q, pool) ← (b.priceLevels i).removeOrder b.pool idx
    .ok (removed,
      { b.setLevel i q with pool := pool, orderMap := Function.update b.orderMap id none })

/-! ### Quantities -/

/-- Sets the quantity of the order at the head of the level of `price`. -/
def modifyQuantity (b : OrderBook) (price newQty : ℕ) : Except Fault (Bool × OrderBook) :=
  let idx := b.priceToIndex price
  if ¬b.hasLevel idx then .ok (false, b)
  else if (b.priceLevels idx.toNat).isEmpty then .ok (false, b)
  else do
    let pool ← b.pool.modifyNode (b.priceLevels idx.toNat).head fun n =>
      { n with order := { n.order with quantity := newQty } }
    .ok (true, { b with pool := pool })

/-- `getTotalBuyQty` and `getTotalSellQty`. -/
def getTotalQty (b : OrderBook) (s : OrderType) : ℕ :=
  (b.side s).totalQty

/-- `decreaseTotalBuyQty` and `decreaseTotalSellQty`. -/
def decreaseTotalQty (b : OrderBook) (s : OrderType) (qty : ℕ) : OrderBook :=
  b.setSide s { b.side s with totalQty := sub64 (b.side s).totalQty qty }

end OrderBook

end TradeX
