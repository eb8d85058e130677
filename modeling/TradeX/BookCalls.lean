import TradeX.EngineRuns
import TradeX.Library.Runs

/-!
# Calls of the book

The public operations of `OrderBook` in any order, `cancelOrder` among them, on a book that
remembers which side each order was added for. What a call does is said once : an order is
added to its level or refused (`step_add`), taken out of it by a removal or a cancel
(`step_remove`, `step_cancel`), and `bestprice` drops stale entries from the top of a heap
(`bestprice_spec`). `BestPrices` and `SideTotals` say what follows for whole runs.
-/

namespace TradeX

/-- A call of a public operation of the book. -/
inductive BookOp
  | add (s : OrderType) (order : Order)
  | remove (s : OrderType) (price : ℕ)
  | cancel (id : ℕ)
  | best (s : OrderType)

/-- A book, and for each id the side whose call has added the order. -/
structure SidedBook where
  book : OrderBook
  sideOf : ℕ → OrderType

namespace SidedBook

/-- A book that has just been constructed. -/
def start (mem : Storage) (poolSize lower upper : ℕ) : SidedBook :=
  ⟨.new mem poolSize lower upper, fun _ => .buy⟩

/-- A call on the book, which notes the side of an order that is accepted. -/
def step (st : SidedBook) : BookOp → Except Fault SidedBook
  | .add s order => do
    let (accepted, book) ← st.book.addOrder s order
    .ok ⟨book, if accepted then Function.update st.sideOf order.orderId s else st.sideOf⟩
  | .remove s price => do
    let (_, book) ← st.book.removeOrder s price
    .ok { st with book := book }
  | .cancel id => do
    let (_, book) ← st.book.cancelOrder id
    .ok { st with book := book }
  | .best s => do
    let (_, book) ← st.book.bestprice s
    .ok { st with book := book }

/-- Calls on the book, one after the other. -/
def run (st : SidedBook) (ops : List BookOp) : Except Fault SidedBook :=
  ops.foldlM step st

/-- The resting orders of a side. -/
def resting (st : SidedBook) (s : OrderType) : List Order :=
  st.book.orders.filter fun o => st.sideOf o.orderId = s

end SidedBook

namespace OrderBook

variable {b b' : OrderBook} {s : OrderType} {i : ℕ}

theorem WF.mem_orders (h : b.WF) {o : Order} : o ∈ b.orders ↔ ∃ i, o ∈ b.queue i := by
  rw [orders, List.mem_flatMap]
  constructor
  · rintro ⟨i, -, ho⟩
    exact ⟨i, ho⟩
  · rintro ⟨i, ho⟩
    obtain ⟨level, free, h⟩ := h
    obtain ⟨k, hk, -⟩ := List.mem_map.1 (h.queue_eq i ▸ ho)
    exact ⟨i, List.mem_range.2 (h.at_level hk).1, ho⟩

/-- A queued order is at the level of its price. -/
theorem WF.levelOf_eq (h : b.WF) {o : Order} (ho : o ∈ b.queue i) :
    i < b.numPriceLevels ∧ b.priceToIndex o.price = i := by
  obtain ⟨level, free, h⟩ := h
  obtain ⟨k, hk, rfl⟩ := List.mem_map.1 (h.queue_eq i ▸ ho)
  exact h.at_level hk

/-- Resting orders have ids of their own. -/
theorem WF.eq_of_orderId (h : b.WF) {o o' : Order} (ho : o ∈ b.orders) (ho' : o' ∈ b.orders)
    (hid : o.orderId = o'.orderId) : o = o' := by
  obtain ⟨i, hi⟩ := h.mem_orders.1 ho
  obtain ⟨j, hj⟩ := h.mem_orders.1 ho'
  obtain ⟨level, free, h⟩ := h
  obtain ⟨k, hk, rfl⟩ := List.mem_map.1 (h.queue_eq i ▸ hi)
  obtain ⟨k', hk', rfl⟩ := List.mem_map.1 (h.queue_eq j ▸ hj)
  have hmap := (h.index _ k).2 ⟨⟨i, hk⟩, hid⟩
  have hmap' := (h.index _ k').2 ⟨⟨j, hk'⟩, rfl⟩
  rw [Option.some.inj (hmap.symm.trans hmap')]

/-- The price has a level, as a heap entry that is not the sentinel has. -/
def HasLevel (b : OrderBook) (p : ℕ) : Prop :=
  ∃ i < b.numPriceLevels, b.priceToIndex p = i

theorem SameFrame.hasLevel (h : SameFrame b b') {p : ℕ}
    (hp : b.HasLevel p) : b'.HasLevel p := by
  obtain ⟨i, hi, hpi⟩ := hp
  exact ⟨i, h.levels ▸ hi, (h.priceToIndex p).trans hpi⟩

theorem SameFrame.isPriceValid_iff (h : SameFrame b b') (p : ℕ) :
    b'.isPriceValid p ↔ b.isPriceValid p := by
  rw [isPriceValid, isPriceValid, h.lower, h.upper]

/-- `bestprice` drops the entries above the first that is the sentinel or has orders, and
clears the flags of their levels. -/
structure Cleaned (b b' : OrderBook) (s : OrderType) (p : ℕ) (dropped tl : List ℕ) : Prop where
  wf : b'.WF
  frame : SameFrame b b'
  queue : ∀ i, b'.queue i = b.queue i
  heap : (b.side s).nextPrice = dropped ++ p :: tl
  side : b'.side = Function.update b.side s { b.side s with nextPrice := p :: tl }
  flag : ∀ i : ℕ, b'.flag i = true ↔ b.flag i = true ∧
    ∀ q ∈ dropped, b.priceToIndex q ≠ i
  dropped : ∀ q ∈ dropped, q ≠ (b.side s).defaultBestPrice ∧
    ∀ i : ℕ, b.priceToIndex q = i → b.queue i = []
  top : p = (b.side s).defaultBestPrice ∨ ∃ i : ℕ, b.priceToIndex p = i ∧ b.queue i ≠ []
  used : b'.pool.used = b.pool.used

/-- What is in the heaps of the book is what was there, but for what has been dropped. -/
theorem Cleaned.mem_heap {p q : ℕ} {dropped tl : List ℕ} {r : OrderType}
    (hc : Cleaned b b' s p dropped tl)
    (hsorted : (b.side s).nextPrice.Pairwise fun p q => better s p q ∧ p ≠ q) :
    q ∈ (b'.side r).nextPrice ↔ q ∈ (b.side r).nextPrice ∧ (r = s → q ∉ dropped) := by
  rw [hc.side]
  rcases eq_or_ne r s with rfl | hr
  · rw [hc.heap, List.pairwise_append] at hsorted
    rw [Function.update_self, hc.heap, List.mem_append]
    constructor
    · exact fun hq => ⟨Or.inr hq, fun _ hd => (hsorted.2.2 q hd q hq).2 rfl⟩
    · exact fun hq => hq.1.resolve_left (hq.2 rfl)
  · rw [Function.update_of_ne hr]
    constructor
    · exact fun hq => ⟨hq, fun e => absurd e hr⟩
    · exact fun hq => hq.1

theorem Cleaned.heap_sorted {p : ℕ} {dropped tl : List ℕ} (hc : Cleaned b b' s p dropped tl)
    (hsorted : ∀ r, (b.side r).nextPrice.Pairwise fun p q => better r p q ∧ p ≠ q)
    (r : OrderType) : (b'.side r).nextPrice.Pairwise fun p q => better r p q ∧ p ≠ q := by
  rw [hc.side]
  rcases eq_or_ne r s with rfl | hr
  · have hs := hsorted r
    rw [hc.heap, List.pairwise_append] at hs
    rw [Function.update_self]
    exact hs.2.1
  · rw [Function.update_of_ne hr]
    exact hsorted r

/-- What is left in the heaps was in them. -/
theorem Cleaned.mem_of_mem {p q : ℕ} {dropped tl : List ℕ} {r : OrderType}
    (hc : Cleaned b b' s p dropped tl) (hq : q ∈ (b'.side r).nextPrice) :
    q ∈ (b.side r).nextPrice := by
  rw [hc.side] at hq
  rcases eq_or_ne r s with rfl | hr
  · rw [Function.update_self] at hq
    rw [hc.heap]
    exact List.mem_append_right _ hq
  · rwa [Function.update_of_ne hr] at hq

/-- The sentinel is never dropped, as the loop stops at it. -/
theorem Cleaned.sentinel_mem {p : ℕ} {dropped tl : List ℕ} {r : OrderType}
    (hc : Cleaned b b' s p dropped tl) (hs : (b.side r).defaultBestPrice ∈ (b.side r).nextPrice) :
    (b'.side r).defaultBestPrice ∈ (b'.side r).nextPrice := by
  rw [hc.frame.sentinel, hc.side]
  rcases eq_or_ne r s with rfl | hr
  · rw [hc.heap] at hs
    rw [Function.update_self]
    exact (List.mem_append.1 hs).resolve_left fun hd => (hc.dropped _ hd).1 rfl
  · rwa [Function.update_of_ne hr]

theorem Cleaned.nil (h : b.WF) {p : ℕ} {tl : List ℕ} (hheap : (b.side s).nextPrice = p :: tl)
    (htop : p = (b.side s).defaultBestPrice ∨ ∃ i : ℕ, b.priceToIndex p = i ∧
      b.queue i ≠ []) :
    Cleaned b b s p [] tl := by
  refine ⟨h, .refl b, fun _ => rfl, hheap, ?_, fun i => by simp, by simp, htop, rfl⟩
  rw [← hheap, Function.update_eq_self]

/-- A top whose level is empty is popped, and the rest is done in the book without it. -/
theorem Cleaned.cons (h : b.WF) {p p' : ℕ} {tl dropped tl' : List ℕ}
    (hheap : (b.side s).nextPrice = p :: tl) (hp : p ≠ (b.side s).defaultBestPrice)
    (hpi : b.priceToIndex p = i) (hq : b.queue i = [])
    (hc : Cleaned (b.popTop s i tl) b' s p' dropped tl') :
    Cleaned b b' s p' (p :: dropped) tl' := by
  have hframe : SameFrame b (b.popTop s i tl) := b.sameFrame_popTop s i tl
  obtain ⟨-, hqueue, hflag⟩ := h.of_popTop s i tl
  have hside : (b.popTop s i tl).side =
      Function.update b.side s { b.side s with nextPrice := tl } := rfl
  have htl : tl = dropped ++ p' :: tl' := by
    rw [← hc.heap, hside, Function.update_self]
  refine ⟨hc.wf, hframe.trans hc.frame, fun j => (hc.queue j).trans (hqueue j), ?_, ?_,
    fun j => ?_, fun q hqd => ?_, ?_, hc.used⟩
  · rw [hheap, htl, List.cons_append]
  · rw [hc.side, hside, Function.update_idem, Function.update_self]
  · rw [hc.flag, hflag]
    simp only [hframe.priceToIndex, List.forall_mem_cons, hpi, ne_eq]
    grind
  · rcases List.mem_cons.1 hqd with rfl | hqd
    · refine ⟨hp, fun j hj => ?_⟩
      obtain rfl : j = i := by exact_mod_cast hj.symm.trans hpi
      exact hq
    · obtain ⟨hne, hnil⟩ := hc.dropped q hqd
      rw [hframe.sentinel] at hne
      exact ⟨hne, fun j hj => hqueue j ▸ hnil j ((hframe.priceToIndex q).trans hj)⟩
  · rcases hc.top with htop | ⟨j, hj, hne⟩
    · rw [hframe.sentinel] at htop
      exact Or.inl htop
    · rw [hframe.priceToIndex] at hj
      exact Or.inr ⟨j, hj, hqueue j ▸ hne⟩

/-- `bestbuyprice` and `bestsellprice` return if the sentinel is in the heap and the other
entries have levels. -/
theorem WF.bestprice_spec : ∀ (heap : List ℕ) {b : OrderBook}, b.WF →
    (b.side s).nextPrice = heap → (b.side s).defaultBestPrice ∈ heap →
    (∀ p ∈ heap, p ≠ (b.side s).defaultBestPrice → b.HasLevel p) →
    ∃ p b' dropped tl, b.bestprice s = .ok (p, b') ∧ Cleaned b b' s p dropped tl
  | [], _, _, _, hs, _ => absurd hs List.not_mem_nil
  | p :: tl, b, h, hheap, hs, hl => by
    rcases eq_or_ne p (b.side s).defaultBestPrice with hp | hp
    · exact ⟨p, b, [], tl, bestprice_of_top hheap (Or.inl hp), .nil h hheap (Or.inl hp)⟩
    · obtain ⟨i, hi, hpi⟩ := hl p List.mem_cons_self hp
      have hlevel : b.levelOf p = .ok i := levelOf_ok hpi hi
      cases hempty : (b.priceLevels i).isEmpty with
      | false =>
        have hne : b.queue i ≠ [] := fun hq => by
          rw [(h.isEmpty_iff i).2 hq] at hempty
          exact absurd hempty (by simp)
        exact ⟨p, b, [], tl, bestprice_of_top hheap (Or.inr ⟨i, hlevel, hempty⟩),
          .nil h hheap (Or.inr ⟨i, hpi, hne⟩)⟩
      | true =>
        have hframe : SameFrame b (b.popTop s i tl) := b.sameFrame_popTop s i tl
        have hside : (b.popTop s i tl).side s = { b.side s with nextPrice := tl } :=
          Function.update_self ..
        have hs' : (b.side s).defaultBestPrice ∈ tl := (List.mem_cons.1 hs).resolve_left hp.symm
        obtain ⟨p', b', dropped, tl', hbest, hc⟩ := bestprice_spec tl (h.of_popTop s i tl).1
          (by rw [hside]) (by rw [hside]; exact hs') fun q hq hne => by
            rw [hframe.sentinel] at hne
            obtain ⟨j, hj, hqj⟩ := hl q (List.mem_cons_of_mem _ hq) hne
            exact ⟨j, hframe.levels ▸ hj, (hframe.priceToIndex q).trans hqj⟩
        exact ⟨p', b', p :: dropped, tl', (bestprice_pop hheap hp hlevel hempty).trans hbest,
          .cons h hheap hp hpi ((h.isEmpty_iff i).1 hempty) hc⟩

end OrderBook

namespace SidedBook

variable {st st' : SidedBook} {s : OrderType} {o : Order} {i : ℕ}

/-! ## Steps -/

/-- An order has been added to level `i`. -/
structure Added (st st' : SidedBook) (s : OrderType) (o : Order) (i : ℕ) : Prop where
  room : st.book.pool.used < st.book.pool.capacity
  level : i < st.book.numPriceLevels
  index : st.book.priceToIndex o.price = i
  wf : st'.book.WF
  frame : OrderBook.SameFrame st.book st'.book
  queue : ∀ j, st'.book.queue j = if j = i then st.book.queue i ++ [o] else st.book.queue j
  flag : ∀ j, st'.book.flag j = if j = i then true else st.book.flag j
  side : st'.book.side = Function.update st.book.side s
    { st.book.side s with
      nextPrice := if st.book.queue i = [] ∧ st.book.flag i = false then
          (st.book.side s).nextPrice.orderedInsert (better s) o.price
        else (st.book.side s).nextPrice
      totalQty := add64 (st.book.side s).totalQty o.quantity }
  used : st'.book.pool.used = st.book.pool.used + 1
  sideOf : st'.sideOf = Function.update st.sideOf o.orderId s

/-- An order has been taken out of level `i`, and off the total of a side if one is given. -/
structure Taken (st st' : SidedBook) (i : ℕ) (o : Order) (charged : Option OrderType) : Prop where
  wf : st'.book.WF
  frame : OrderBook.SameFrame st.book st'.book
  queue : ∃ before after, st.book.queue i = before ++ o :: after ∧
    ∀ j, st'.book.queue j = if j = i then before ++ after else st.book.queue j
  flag : ∀ j, st'.book.flag j = st.book.flag j
  heap : ∀ r, (st'.book.side r).nextPrice = (st.book.side r).nextPrice
  total : ∀ r, (st'.book.side r).totalQty = if charged = some r then
    sub64 (st.book.side r).totalQty o.quantity else (st.book.side r).totalQty
  used : st'.book.pool.used + 1 = st.book.pool.used
  sideOf : st'.sideOf = st.sideOf

/-- An order with a fresh id is added to its level or refused. -/
theorem step_add (h : st.book.WF) (hfresh : ∀ o' ∈ st.book.orders, o'.orderId ≠ o.orderId) :
    st.step (.add s o) = .ok st ∨ ∃ st' i, st.step (.add s o) = .ok st' ∧
      Added st st' s o i := by
  have hrefused : st.book.addOrder s o = .ok (false, st.book) → st.step (.add s o) = .ok st := by
    intro hadd
    simp only [step, hadd, ok_bind, Bool.false_eq_true, if_false]
  by_cases hroom : ∃ i : ℕ, st.book.priceToIndex o.price = i ∧ i < st.book.numPriceLevels ∧
      st.book.pool.used < st.book.pool.capacity
  · obtain ⟨i, hp, hi, hroom⟩ := hroom
    obtain ⟨b', hadd, hwf, hframe, hq, hflag, hside, hused⟩ :=
      h.addOrder_spec (s := s) hroom hp hi fun j o' ho' => hfresh o' (h.mem_orders.2 ⟨j, ho'⟩)
    refine Or.inr ⟨⟨b', Function.update st.sideOf o.orderId s⟩, i, ?_, hroom, hi, hp, hwf,
      hframe, hq, hflag, hside, hused, rfl⟩
    simp only [step, hadd, ok_bind, if_true]
  · exact Or.inl (hrefused (h.addOrder_refused s hroom))

/-- The first order of the level of a price is removed. -/
theorem step_remove (h : st.book.WF) {p : ℕ} {l : List Order} (hp : st.book.priceToIndex p = i)
    (hi : i < st.book.numPriceLevels) (hq : st.book.queue i = o :: l) :
    ∃ st', st.step (.remove s p) = .ok st' ∧ Taken st st' i o (some s) := by
  obtain ⟨b', hrm, hwf, hframe, hqueue, hflag, hside, hused⟩ := h.removeOrder_spec s hp hi hq
  refine ⟨{ st with book := b' }, ?_, hwf, hframe, ⟨[], l, hq, hqueue⟩, hflag, fun r => ?_,
    fun r => ?_, hused, rfl⟩
  · simp only [step, hrm, ok_bind]
  · rcases eq_or_ne r s with rfl | hr
    · rw [hside, Function.update_self]
    · rw [hside, Function.update_of_ne hr]
  · rcases eq_or_ne r s with rfl | hr
    · rw [hside, Function.update_self, if_pos rfl]
    · rw [hside, Function.update_of_ne hr, if_neg (fun h => hr (Option.some.inj h).symm)]

/-- A cancel of a resting order takes it out of its level, and others do nothing. -/
theorem step_cancel (h : st.book.WF) (id : ℕ) :
    (∀ o ∈ st.book.orders, o.orderId ≠ id) ∧ st.step (.cancel id) = .ok st ∨
      ∃ st' i o, o.orderId = id ∧ st.step (.cancel id) = .ok st' ∧ Taken st st' i o none := by
  rcases em (∃ i, ∃ o ∈ st.book.queue i, o.orderId = id) with ⟨i, o, ho, rfl⟩ | hid
  · obtain ⟨before, after, hq⟩ := List.append_of_mem ho
    obtain ⟨b', hcancel, hwf, hframe, hqueue, hflag, hside, hused⟩ := h.cancelOrder_spec hq
    refine Or.inr ⟨{ st with book := b' }, i, o, rfl, ?_, hwf, hframe,
      ⟨before, after, hq, hqueue⟩,
      hflag, fun r => by rw [hside], fun r => by simp [hside], hused, rfl⟩
    simp only [step, hcancel, ok_bind]
  · have hunknown := h.cancelOrder_unknown fun i o ho hoid => hid ⟨i, o, ho, hoid⟩
    refine Or.inl ⟨fun o ho hoid => ?_, by simp only [step, hunknown, ok_bind]⟩
    obtain ⟨i, hi⟩ := h.mem_orders.1 ho
    exact hid ⟨i, o, hi, hoid⟩

theorem Added.mem_queue (h : Added st st' s o i) {j : ℕ} {o' : Order} :
    o' ∈ st'.book.queue j ↔ o' ∈ st.book.queue j ∨ j = i ∧ o' = o := by
  rw [h.queue]
  split_ifs with hj
  · simp [hj]
  · simp [hj]

theorem Taken.mem_of_mem {charged : Option OrderType} (h : Taken st st' i o charged) {j : ℕ}
    {o' : Order} (ho' : o' ∈ st'.book.queue j) : o' ∈ st.book.queue j := by
  obtain ⟨before, after, hq, hqueue⟩ := h.queue
  rw [hqueue] at ho'
  split_ifs at ho' with hj
  · subst hj
    rw [hq, List.mem_append, List.mem_cons]
    exact (List.mem_append.1 ho').imp_right Or.inr
  · exact ho'

theorem mem_resting (h : st.book.WF) {o : Order} :
    o ∈ st.resting s ↔ (∃ i, o ∈ st.book.queue i) ∧ st.sideOf o.orderId = s := by
  rw [resting, List.mem_filter, h.mem_orders, decide_eq_true_eq]

theorem steps_iff_run {ops : List BookOp} :
    Runs.Steps (fun st op st' => step st op = .ok st') ops st st' ↔ st.run ops = .ok st' :=
  Runs.steps_iff_ok

/-! ## Samples -/

/-- An order of one unit. -/
def unitOrder (orderId : ℕ) (s : OrderType) (price : ℕ) : Order :=
  ⟨orderId, .limit, price, 0, 0, s, 1, 1, 0⟩

/-- A book with the band from 95 to 105, in storage that is zero. -/
def sampleStart : SidedBook :=
  start ⟨fun _ => ⟨⟨0, .market, 0, 0, 0, .buy, 0, 0, 0⟩, 0, 0⟩, fun _ => 0⟩ 4 95 105

end SidedBook

end TradeX
