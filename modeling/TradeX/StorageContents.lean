import TradeX.BookIntegrity
import TradeX.Library.Outcomes

/-!
# What the storage of a book contains

The constructor of `OrderBook` leaves the two totals as it finds them, and `malloc` the nodes of the
pool. `Alike` books differ in nothing else : every operation returns the same on both and leaves
them alike. The matching loops look at a total too, but only to see whether it is zero. A call is
`Open` if that test never stops an order that accepts the best price.

`run_alike` : two runs of the same orders, whatever is in the storage, publish the same trades and
leave the same resting orders as long as all calls of both are open.
-/

namespace TradeX

/-- A list splits in one way at the first element that does not satisfy `P`. -/
theorem split_unique {α : Type} {P : α → Prop} :
    ∀ {l₁ l₁' : List α} {a a' : α} {l₂ l₂' : List α},
    l₁ ++ a :: l₂ = l₁' ++ a' :: l₂' → (∀ x ∈ l₁, P x) →
      (∀ x ∈ l₁', P x) → ¬P a → ¬P a' → l₁ = l₁' ∧ a = a' ∧ l₂ = l₂'
  | [], [], _, _, _, _, h, _, _, _, _ => ⟨rfl, List.cons.inj h⟩
  | [], _ :: _, _, _, _, _, h, _, h', ha, _ => by
    obtain ⟨rfl, -⟩ := List.cons.inj h
    exact absurd (h' _ List.mem_cons_self) ha
  | _ :: _, [], _, _, _, _, h, hl, _, _, ha' => by
    obtain ⟨rfl, -⟩ := List.cons.inj h
    exact absurd (hl _ List.mem_cons_self) ha'
  | _ :: l₁, _ :: l₁', _, _, _, _, h, hl, hl', ha, ha' => by
    obtain ⟨rfl, htail⟩ := List.cons.inj h
    obtain ⟨rfl, rfl, rfl⟩ := split_unique htail (fun x hx => hl x (List.mem_cons_of_mem _ hx))
      (fun x hx => hl' x (List.mem_cons_of_mem _ hx)) ha ha'
    exact ⟨rfl, rfl, rfl⟩

namespace OrderBook

variable {b b' : OrderBook} {s : OrderType} {p i : ℕ} {o : Order} {ids : List ℕ}

theorem SameFrame.symm (h : SameFrame b b') : SameFrame b' b :=
  ⟨h.lower.symm, h.upper.symm, h.levels.symm, h.capacity.symm, fun s => (h.sentinel s).symm⟩

/-- Two changes of two books with the same frame leave the same frame. -/
theorem SameFrame.of_changes {b₁ b₁' : OrderBook} (h : SameFrame b b') (h₁ : SameFrame b b₁)
    (h₁' : SameFrame b' b₁') : SameFrame b₁ b₁' :=
  (h₁.symm.trans h).trans h₁'

/-- The head of an empty level is no node. -/
theorem WF.gethead_of_nil (h : b.WF) (hq : b.queue i = []) :
    (b.priceLevels i).gethead b.pool = .error .badAccess := by
  obtain ⟨level, free, h⟩ := h
  have hhead : (b.priceLevels i).head = nullIdx :=
    (h.toArena.head_eq_null_iff i).2 ((h.queue_eq_nil_iff i).1 hq)
  have hcap := h.capacity_lt
  have hnode : b.pool.getNode nullIdx = .error .badAccess := if_neg (by unfold nullIdx; omega)
  rw [PriceQueues.gethead, hhead, hnode]
  rfl

/-- A head that is read is the first order of a level. -/
theorem WF.of_headAt (h : b.WF) (hhead : b.headAt p = .ok o) :
    ∃ (i : ℕ) (l : List Order), b.priceToIndex p = i ∧ i < b.numPriceLevels ∧
      b.queue i = o :: l := by
  obtain ⟨i, hlevel, hget⟩ := bind_eq_ok.1 hhead
  unfold levelOf at hlevel
  split_ifs at hlevel with hl
  obtain rfl := Except.ok.inj hlevel
  have hidx : b.priceToIndex p = ((b.priceToIndex p).toNat : ℤ) := (Int.toNat_of_nonneg hl.1).symm
  have hlt : (b.priceToIndex p).toNat < b.numPriceLevels := by
    have := hl.2
    omega
  cases hq : b.queue (b.priceToIndex p).toNat with
  | nil =>
    rw [h.gethead_of_nil hq] at hget
    cases hget
  | cons o' l =>
    rw [h.gethead_ok hq] at hget
    obtain rfl := Except.ok.inj hget
    exact ⟨_, l, hidx, hlt, hq⟩

/-! ## Books that are alike -/

/-- Two books that differ in their totals, and in what is in their nodes apart from the resting
orders. The ids of these are among `ids`. -/
structure Alike (ids : List ℕ) (b b' : OrderBook) : Prop where
  wf : b.WF
  wf' : b'.WF
  frame : SameFrame b b'
  queue : ∀ i, b'.queue i = b.queue i
  flag : ∀ i, b'.flag i = b.flag i
  heap : ∀ s, (b'.side s).nextPrice = (b.side s).nextPrice
  used : b'.pool.used = b.pool.used
  sentinel : ∀ s, (b.side s).defaultBestPrice ∈ (b.side s).nextPrice
  entry : ∀ s, ∀ p ∈ (b.side s).nextPrice, p ≠ (b.side s).defaultBestPrice → b.HasLevel p
  known : ∀ i, ∀ o ∈ b.queue i, o.orderId ∈ ids

namespace Alike

theorem mono {ids' : List ℕ} (h : Alike ids b b') (hsub : ∀ id ∈ ids, id ∈ ids') :
    Alike ids' b b' :=
  { h with known := fun i o ho => hsub _ (h.known i o ho) }

theorem symm (h : Alike ids b b') : Alike ids b' b := by
  refine ⟨h.wf', h.wf, h.frame.symm, fun i => (h.queue i).symm, fun i => (h.flag i).symm,
    fun s => (h.heap s).symm, h.used.symm, fun s => ?_, fun s p hp hne => ?_, fun i o ho => ?_⟩
  · rw [h.frame.sentinel, h.heap]
    exact h.sentinel s
  · rw [h.frame.sentinel] at hne
    rw [h.heap] at hp
    exact h.frame.hasLevel (h.entry s p hp hne)
  · exact h.known i o (h.queue i ▸ ho)

theorem headAt (h : Alike ids b b') (p : ℕ) : b'.headAt p = b.headAt p := by
  rw [OrderBook.headAt, OrderBook.headAt, h.frame.levelOf]
  rcases b.levelOf p with _ | i
  · rfl
  · simp only [ok_bind]
    cases hq : b.queue i with
    | nil => rw [h.wf.gethead_of_nil hq, h.wf'.gethead_of_nil ((h.queue i).trans hq)]
    | cons o l => rw [h.wf.gethead_ok hq, h.wf'.gethead_ok ((h.queue i).trans hq)]

/-- Orders leave, or change within their level, and the heaps stay. -/
theorem of_queue {b₁ b₁' : OrderBook} (h : Alike ids b b') (hwf : b₁.WF) (hwf' : b₁'.WF)
    (hframe : SameFrame b b₁) (hframe' : SameFrame b' b₁')
    (hqueue : ∀ j, b₁'.queue j = b₁.queue j) (hflag : ∀ j, b₁.flag j = b.flag j)
    (hflag' : ∀ j, b₁'.flag j = b'.flag j)
    (hheap : ∀ r, (b₁.side r).nextPrice = (b.side r).nextPrice)
    (hheap' : ∀ r, (b₁'.side r).nextPrice = (b'.side r).nextPrice)
    (hused : b₁'.pool.used = b₁.pool.used) (hknown : ∀ j, ∀ o ∈ b₁.queue j,
      o.orderId ∈ ids) :
    Alike ids b₁ b₁' := by
  refine ⟨hwf, hwf', h.frame.of_changes hframe hframe', hqueue, fun j => ?_, fun r => ?_, hused,
    fun r => ?_, fun r p hp hne => ?_, hknown⟩
  · rw [hflag', h.flag, hflag]
  · rw [hheap', h.heap, hheap]
  · rw [hframe.sentinel, hheap]
    exact h.sentinel r
  · rw [hheap] at hp
    rw [hframe.sentinel] at hne
    exact hframe.hasLevel (h.entry r p hp hne)

theorem removeOrder (h : Alike ids b b') (s : OrderType) (hhead : b.headAt p = .ok o) :
    ∃ b₁ b₁', b.removeOrder s p = .ok (true, b₁) ∧
      b'.removeOrder s p = .ok (true, b₁') ∧ Alike ids b₁ b₁' := by
  obtain ⟨i, l, hp, hi, hq⟩ := h.wf.of_headAt hhead
  obtain ⟨b₁, hrm, hwf, hframe, hqueue, hflag, hside, hused⟩ :=
    h.wf.removeOrder_spec s hp hi hq
  obtain ⟨b₁', hrm', hwf', hframe', hqueue', hflag', hside', hused'⟩ :=
    h.wf'.removeOrder_spec s
    ((h.frame.priceToIndex p).trans hp) (h.frame.levels ▸ hi) ((h.queue i).trans hq)
  have hkeep : ∀ {c c₁ : OrderBook} {t : ℕ}, c₁.side = Function.update c.side s
      { c.side s with totalQty := t } →
        ∀ r, (c₁.side r).nextPrice = (c.side r).nextPrice := by
    intro c c₁ t hc r
    rcases eq_or_ne r s with rfl | hr
    · rw [hc, Function.update_self]
    · rw [hc, Function.update_of_ne hr]
  refine ⟨b₁, b₁', hrm, hrm', h.of_queue hwf hwf' hframe hframe' (fun j => ?_) hflag hflag'
    (hkeep hside) (hkeep hside') ?_ fun j x hx => ?_⟩
  · rw [hqueue, hqueue', h.queue]
  · have := h.used
    omega
  · rw [hqueue] at hx
    split_ifs at hx with hj
    · exact h.known i x (hq ▸ List.mem_cons_of_mem _ hx)
    · exact h.known j x hx

theorem modifyQuantity (h : Alike ids b b') (hhead : b.headAt p = .ok o) (q : ℕ) :
    ∃ b₁ b₁', b.modifyQuantity p q = .ok (true, b₁) ∧
      b'.modifyQuantity p q = .ok (true, b₁') ∧ Alike ids b₁ b₁' := by
  obtain ⟨i, l, hp, hi, hq⟩ := h.wf.of_headAt hhead
  obtain ⟨b₁, hmod, hwf, hframe, hqueue, hlevels, hside, hused⟩ :=
    h.wf.modifyQuantity_spec hp hi hq q
  obtain ⟨b₁', hmod', hwf', hframe', hqueue', hlevels', hside', hused'⟩ :=
    h.wf'.modifyQuantity_spec
    ((h.frame.priceToIndex p).trans hp) (h.frame.levels ▸ hi) ((h.queue i).trans hq) q
  refine ⟨b₁, b₁', hmod, hmod', h.of_queue hwf hwf' hframe hframe' (fun j => ?_)
    (fun j => by rw [OrderBook.flag, hlevels]; rfl) (fun j => by rw [OrderBook.flag, hlevels']; rfl)
    (fun r => by rw [hside]) (fun r => by rw [hside']) ?_ fun j x hx => ?_⟩
  · rw [hqueue, hqueue', h.queue]
  · rw [hused, hused', h.used]
  · rw [hqueue] at hx
    split_ifs at hx with hj
    · rcases List.mem_cons.1 hx with rfl | hx
      · exact h.known i o (hq ▸ List.mem_cons_self)
      · exact h.known i x (hq ▸ List.mem_cons_of_mem _ hx)
    · exact h.known j x hx

theorem addOrder (h : Alike ids b b') (s : OrderType) (hnew : o.orderId ∉ ids) :
    ∃ accepted b₁ b₁', b.addOrder s o = .ok (accepted, b₁) ∧
      b'.addOrder s o = .ok (accepted, b₁') ∧ Alike (o.orderId :: ids) b₁ b₁' := by
  have hmono : Alike (o.orderId :: ids) b b' := h.mono fun id hid => List.mem_cons_of_mem _ hid
  by_cases hroom : ∃ i : ℕ, b.priceToIndex o.price = i ∧ i < b.numPriceLevels ∧
      b.pool.used < b.pool.capacity
  · obtain ⟨i, hp, hi, hroom⟩ := hroom
    have hfresh : ∀ j, ∀ o' ∈ b.queue j, o'.orderId ≠ o.orderId :=
      fun j o' ho' heq => hnew (heq ▸ h.known j o' ho')
    have hfresh' : ∀ j, ∀ o' ∈ b'.queue j, o'.orderId ≠ o.orderId :=
      fun j => h.queue j ▸ hfresh j
    have hroom' : b'.pool.used < b'.pool.capacity := by rwa [h.used, h.frame.capacity]
    obtain ⟨b₁, hadd, hwf, hframe, hqueue, hflag, hside, hused⟩ :=
      h.wf.addOrder_spec (s := s) hroom hp hi hfresh
    obtain ⟨b₁', hadd', hwf', hframe', hqueue', hflag', hside', hused'⟩ :=
      h.wf'.addOrder_spec (s := s) hroom' ((h.frame.priceToIndex o.price).trans hp)
        (h.frame.levels ▸ hi) hfresh'
    have hmem := AgedBook.mem_heap_of_add hside
    refine ⟨true, b₁, b₁', hadd, hadd', hwf, hwf', h.frame.of_changes hframe hframe',
      fun j => ?_,
      fun j => ?_, fun r => ?_, ?_, fun r => ?_, fun r p hpr hne => ?_, fun j x hx => ?_⟩
    · rw [hqueue, hqueue', h.queue, h.queue]
    · rw [hflag, hflag', h.flag]
    · rcases eq_or_ne r s with rfl | hr
      · rw [hside, hside', Function.update_self, Function.update_self, h.queue, h.flag, h.heap]
      · rw [hside, hside', Function.update_of_ne hr, Function.update_of_ne hr, h.heap]
    · rw [hused, hused', h.used]
    · rw [hframe.sentinel]
      exact (hmem r _).1 (h.sentinel r)
    · rw [hframe.sentinel] at hne
      refine hframe.hasLevel ?_
      rcases (hmem r p).2 hpr with rfl | hold
      · exact ⟨i, hi, hp⟩
      · exact h.entry r p hold hne
    · rw [hqueue] at hx
      split_ifs at hx with hj
      · rcases List.mem_append.1 hx with hx | hx
        · exact hmono.known i x hx
        · rw [List.mem_singleton.1 hx]
          exact List.mem_cons_self
      · exact hmono.known j x hx
  · refine ⟨false, b, b', h.wf.addOrder_refused s hroom, h.wf'.addOrder_refused s ?_, hmono⟩
    simpa only [h.frame.priceToIndex, h.frame.levels, h.used, h.frame.capacity] using hroom

/-- The best price is found in the same place of the same heap. -/
theorem bestprice (h : Alike ids b b') (s : OrderType) :
    ∃ p b₁ b₁', b.bestprice s = .ok (p, b₁) ∧ b'.bestprice s = .ok (p, b₁') ∧
      Alike ids b₁ b₁' ∧
      ∃ dropped tl, Cleaned b b₁ s p dropped tl ∧ Cleaned b' b₁' s p dropped tl := by
  obtain ⟨p, b₁, dropped, tl, hbest, hc⟩ :=
    h.wf.bestprice_spec _ rfl (h.sentinel s) (h.entry s)
  obtain ⟨p', b₁', dropped', tl', hbest', hc'⟩ :=
    h.wf'.bestprice_spec _ rfl (h.symm.sentinel s) (h.symm.entry s)
  -- in both books the entries before it are the ones to drop
  have htop : ∀ {c c₁ : OrderBook} {q : ℕ} {d t : List ℕ}, Cleaned c c₁ s q d t →
      ¬(q ≠ (c.side s).defaultBestPrice ∧ ∀ i : ℕ, c.priceToIndex q = i →
        c.queue i = []) := by
    rintro c c₁ q d t hc ⟨hne, hnil⟩
    rcases hc.top with rfl | ⟨i, hi, hq⟩
    · exact hne rfl
    · exact hq (hnil i hi)
  have hsame : ∀ q, (q ≠ (b'.side s).defaultBestPrice ∧
      ∀ i : ℕ, b'.priceToIndex q = i → b'.queue i = []) ↔
      (q ≠ (b.side s).defaultBestPrice ∧ ∀ i : ℕ, b.priceToIndex q = i →
        b.queue i = []) := by
    intro q
    simp only [h.frame.sentinel, h.frame.priceToIndex, h.queue]
  have hheaps : dropped ++ p :: tl = dropped' ++ p' :: tl' := by
    rw [← hc.heap, ← hc'.heap, h.heap]
  obtain ⟨rfl, rfl, rfl⟩ := split_unique hheaps hc.dropped
    (fun q hq => (hsame q).1 (hc'.dropped q hq)) (htop hc) (fun hq => htop hc' ((hsame _).2 hq))
  refine ⟨p, b₁, b₁', hbest, hbest', ⟨hc.wf, hc'.wf, h.frame.of_changes hc.frame hc'.frame,
    fun j => ?_, fun j => ?_, fun r => ?_, ?_, fun r => hc.sentinel_mem (h.sentinel r),
    fun r q hq hne => ?_, fun j x hx => ?_⟩, dropped, tl, hc, hc'⟩
  · rw [hc.queue, hc'.queue, h.queue]
  · rw [Bool.eq_iff_iff, hc.flag, hc'.flag, h.flag]
    simp only [h.frame.priceToIndex]
  · rcases eq_or_ne r s with rfl | hr
    · rw [hc.side, hc'.side, Function.update_self, Function.update_self]
    · rw [hc.side, hc'.side, Function.update_of_ne hr, Function.update_of_ne hr, h.heap]
  · rw [hc.used, hc'.used, h.used]
  · rw [hc.frame.sentinel] at hne
    exact hc.frame.hasLevel (h.entry r q (hc.mem_of_mem hq) hne)
  · rw [hc.queue] at hx
    exact h.known j x hx

theorem decreaseTotalQty (h : Alike ids b b') (s : OrderType) (qty : ℕ) :
    Alike ids (b.decreaseTotalQty s qty) (b'.decreaseTotalQty s qty) := by
  have hframe : ∀ c : OrderBook, SameFrame c (c.decreaseTotalQty s qty) :=
    fun c => sameFrame_setSide c s _ rfl
  have hheap : ∀ (c : OrderBook) r, ((c.decreaseTotalQty s qty).side r).nextPrice =
      (c.side r).nextPrice := by
    intro c r
    rcases eq_or_ne r s with rfl | hr
    · simp [OrderBook.decreaseTotalQty, setSide]
    · simp [OrderBook.decreaseTotalQty, setSide, hr]
  obtain ⟨hwf, hqueue⟩ :=
    h.wf.of_same (hframe b) rfl rfl (fun _ => rfl) (fun _ => rfl) fun _ => rfl
  obtain ⟨hwf', hqueue'⟩ :=
    h.wf'.of_same (hframe b') rfl rfl (fun _ => rfl) (fun _ => rfl) fun _ => rfl
  refine h.of_queue hwf hwf' (hframe b) (hframe b') (fun j => ?_) (fun _ => rfl) (fun _ => rfl)
    (hheap b) (hheap b') h.used fun j x hx => ?_
  · rw [hqueue, hqueue', h.queue]
  · rw [hqueue] at hx
    exact h.known j x hx

end Alike

/-- A book whose heap has the sentinel or a price with orders at its top stays as it is. -/
theorem WF.bestprice_of_live (h : b.WF) {tl : List ℕ} (hheap : (b.side s).nextPrice = p :: tl)
    (htop : p = (b.side s).defaultBestPrice ∨ ∃ i : ℕ, b.priceToIndex p = i ∧
      b.queue i ≠ []) :
    b.bestprice s = .ok (p, b) := by
  refine bestprice_of_top hheap (htop.imp_right ?_)
  rintro ⟨i, hp, hne⟩
  obtain ⟨o, l, hq⟩ := List.exists_cons_of_ne_nil hne
  have hi := (h.levelOf_eq (hq ▸ List.mem_cons_self : o ∈ b.queue i)).1
  refine ⟨i, levelOf_ok hp hi, ?_⟩
  rw [← Bool.not_eq_true, h.isEmpty_iff]
  exact hne

/-- Asking again gives the same. -/
theorem Cleaned.bestprice_eq {b₁ : OrderBook} {dropped tl : List ℕ}
    (hc : Cleaned b b₁ s p dropped tl) : b₁.bestprice s = .ok (p, b₁) := by
  have htl : (b₁.side s).nextPrice = p :: tl := by rw [hc.side, Function.update_self]
  refine hc.wf.bestprice_of_live htl ?_
  simp only [hc.frame.sentinel, hc.frame.priceToIndex, hc.queue]
  exact hc.top

/-- If nothing is dropped the book stays as it is. -/
theorem Cleaned.eq_of_heap {b₁ : OrderBook} {dropped tl : List ℕ} (h : b.WF)
    (hc : Cleaned b b₁ s p dropped tl) (hbest : b.bestprice s = .ok (p, b₁))
    (hheap : (b₁.side s).nextPrice = (b.side s).nextPrice) : b₁ = b := by
  have htl : (b₁.side s).nextPrice = p :: tl := by rw [hc.side, Function.update_self]
  rw [h.bestprice_of_live (hheap.symm.trans htl) hc.top] at hbest
  exact (Prod.mk.inj (Except.ok.inj hbest)).2.symm

end OrderBook

open OrderBook Runs

/-! ## Open calls -/

/-- A state of a matching loop. -/
structure Pass where
  best : ℕ
  book : OrderBook
  order : Order

/-- What the next pass of a matching loop starts with, if there is one. -/
def nextPass (s : OrderType) (a : Pass) : Except Fault Pass := do
  let head ← a.book.headAt a.best
  let (_, book) ← a.book.removeOrder s a.best
  let (best, book) ← book.bestprice s
  .ok ⟨best, book, { a.order with quantity := a.order.quantity - head.quantity }⟩

/-- The head is larger than the order, and the loop returns. -/
def lastPass (a : Pass) : Bool :=
  (a.book.headAt a.best).toOption.any fun head => a.order.quantity < head.quantity

/-- No pass of the loop finds the total zero when the order has units left and accepts the best
price. -/
def loopOpen (s : OrderType) (guard : ℕ → Bool) : ℕ → Pass → Bool
  | 0, _ => true
  | fuel + 1, a =>
    if 0 < a.order.quantity ∧ guard a.best then
      decide (0 < a.book.getTotalQty s) &&
        (lastPass a || (nextPass s a).toOption.all (loopOpen s guard fuel))
    else true

/-- If the first test of a call finds the total zero, there is nothing that the order accepts, and
no entry to drop; and the tests of the loop are open. -/
def testsOpen (b : OrderBook) (s : OrderType) (guard : ℕ → Bool) (order : Order) : Bool :=
  match b.bestprice s with
  | .ok (best, b₁) =>
    decide (b.getTotalQty s = 0 →
      (b₁.side s).nextPrice = (b.side s).nextPrice ∧ guard best = false) &&
    loopOpen s guard (matchFuel b₁ order) ⟨best, b₁, order⟩
  | .error _ => true

/-- The tests of the total that a `process_order` call makes are open. -/
def Open (b : OrderBook) (order : Order) : Prop :=
  if order.executionType = .market then
    testsOpen b order.type.opposite (fun p => decide (b.isPriceValid p)) order = true
  else b.isPriceValid order.price →
    testsOpen b order.type.opposite
      (fun p => decide (better order.type.opposite p order.price)) order = true

instance (b : OrderBook) (order : Order) : Decidable (Open b order) := by
  unfold Open
  infer_instance

section LoopOpen

variable {s : OrderType} {guard : ℕ → Bool} {fuel best : ℕ} {book : OrderBook} {order : Order}

theorem total_pos_of_loopOpen (hopen : loopOpen s guard (fuel + 1) ⟨best, book, order⟩ = true)
    (hc : 0 < order.quantity ∧ guard best = true) : 0 < book.getTotalQty s := by
  rw [loopOpen, if_pos hc, Bool.and_eq_true, decide_eq_true_eq] at hopen
  exact hopen.1

theorem lastPass_eq_false {head : Order} (hhead : book.headAt best = .ok head)
    (hlt : ¬order.quantity < head.quantity) : lastPass ⟨best, book, order⟩ = false := by
  have hsome : (book.headAt best).toOption = some head := by rw [hhead]; rfl
  unfold lastPass
  rw [hsome]
  exact decide_eq_false hlt

theorem nextPass_eq {head : Order} {book₁ book₂ : OrderBook} {removed : Bool} {best' : ℕ}
    (hhead : book.headAt best = .ok head) (hrm : book.removeOrder s best = .ok (removed, book₁))
    (hbest : book₁.bestprice s = .ok (best', book₂)) : nextPass s ⟨best, book, order⟩ =
      .ok ⟨best', book₂, { order with quantity := order.quantity - head.quantity }⟩ := by
  simp only [nextPass, hhead, hrm, hbest, ok_bind]

/-- The next pass is open too. -/
theorem loopOpen_next (hopen : loopOpen s guard (fuel + 1) ⟨best, book, order⟩ = true)
    (hc : 0 < order.quantity ∧ guard best = true) {head : Order} {book₁ book₂ : OrderBook}
    {removed : Bool} {best' : ℕ} (hhead : book.headAt best = .ok head)
    (hlt : ¬order.quantity < head.quantity)
    (hrm : book.removeOrder s best = .ok (removed, book₁))
    (hbest : book₁.bestprice s = .ok (best', book₂)) :
    loopOpen s guard fuel ⟨best', book₂,
      { order with quantity := order.quantity - head.quantity }⟩ = true := by
  rw [loopOpen, if_pos hc, Bool.and_eq_true, lastPass_eq_false hhead hlt, Bool.false_or,
    nextPass_eq hhead hrm hbest] at hopen
  exact hopen.2

end LoopOpen

/-! ## Calls on books that are alike -/

section Calls

variable {ids : List ℕ} {s t : OrderType} {guard : ℕ → Bool}

/-- Alike books, after loops that have made the same executions and left the same of the order. -/
structure SameMatch (ids : List ℕ) (order : Order) (r r' : MatchResult) : Prop where
  book : Alike ids r.book r'.book
  executions : r'.executions = r.executions
  remainder : r'.remainder = r.remainder
  orderId : ∀ o ∈ r.remainder, o.orderId = order.orderId

/-- The loops make the same executions. -/
theorem matchLoop_alike :
    ∀ {fuel : ℕ} (id : ℕ) {best : ℕ} {b b' : OrderBook} {order : Order},
    Alike ids b b' → loopOpen s guard fuel ⟨best, b, order⟩ = true →
    loopOpen s guard fuel ⟨best, b', order⟩ = true →
    SameOutcome (SameMatch ids order) (matchLoop s guard fuel id best b order)
      (matchLoop s guard fuel id best b' order)
  | 0, _, _, _, _, _, _, _, _ => .error _
  | fuel + 1, id, best, b, b', order, h, hopen, hopen' => by
    rw [matchLoop, matchLoop]
    by_cases hc : 0 < order.quantity ∧ guard best = true
    · have htotal := total_pos_of_loopOpen hopen hc
      have htotal' := total_pos_of_loopOpen hopen' hc
      rw [if_pos ⟨hc.1, htotal, hc.2⟩, if_pos ⟨hc.1, htotal', hc.2⟩, h.headAt]
      cases hhead : b.headAt best with
      | error e => exact .error e
      | ok head =>
        simp only [ok_bind]
        by_cases hlt : order.quantity < head.quantity
        · obtain ⟨b₁, b₁', hmod, hmod', h₁⟩ :=
            h.modifyQuantity hhead (head.quantity - order.quantity)
          rw [if_pos hlt, if_pos hlt, hmod, hmod']
          exact .ok ⟨h₁.decreaseTotalQty s order.quantity, rfl, rfl, by simp⟩
        · obtain ⟨b₁, b₁', hrm, hrm', h₁⟩ := h.removeOrder s hhead
          obtain ⟨best', b₂, b₂', hbest, hbest', h₂, -⟩ := h₁.bestprice s
          rw [if_neg hlt, if_neg hlt, hrm, hrm']
          simp only [ok_bind, hbest, hbest']
          refine (matchLoop_alike (nextTradeId id) h₂ (loopOpen_next hopen hc hhead hlt hrm hbest)
            (loopOpen_next hopen' hc ((h.headAt best).trans hhead) hlt hrm' hbest')).bind ?_
          intro r r' hr
          exact .ok ⟨hr.book, by rw [hr.executions], hr.remainder, hr.orderId⟩
    · have hstop : ∀ c : OrderBook,
          ¬(0 < order.quantity ∧ 0 < c.getTotalQty s ∧ guard best = true) :=
        fun c h => hc ⟨h.1, h.2.2⟩
      rw [if_neg (hstop b), if_neg (hstop b')]
      exact .ok ⟨h, rfl, rfl, by simp⟩

/-- `process_buy` and `process_sell` without the first test of the total. -/
def limitPath (t : OrderType) (tradeId : ℕ) (book : OrderBook) (order : Order) :
    Except Fault Processed := do
  let (best, book) ← book.bestprice t.opposite
  if ¬better t.opposite best order.price then
    let (_, book) ← book.addOrder t order
    .ok (book, [])
  else
    let r ← matchLoop t.opposite (fun p => better t.opposite p order.price)
      (matchFuel book order) tradeId best book order
    match r.remainder with
    | none => .ok (r.book, r.executions)
    | some order =>
      if 0 < order.quantity then
        let (_, book) ← r.book.addOrder t order
        .ok (book, r.executions)
      else .ok (r.book, r.executions)

/-- `process_market_buy` and `process_market_sell` without the first test of the total. -/
def marketPath (t : OrderType) (tradeId : ℕ) (book : OrderBook) (order : Order) :
    Except Fault Processed := do
  let (best, book) ← book.bestprice t.opposite
  let r ← matchLoop t.opposite (fun p => book.isPriceValid p) (matchFuel book order) tradeId best
    book order
  .ok (r.book, r.executions)

variable {b b' : OrderBook} {order : Order}

/-- What an open first test says about a book that the heaps of which are in order. -/
theorem testsOpen_spec (h : Alike ids b b') (hopen : testsOpen b s guard order = true) :
    ∃ best b₁, b.bestprice s = .ok (best, b₁) ∧ b₁.bestprice s = .ok (best, b₁) ∧
      (b.getTotalQty s = 0 → b₁ = b ∧ guard best = false) ∧
      loopOpen s guard (matchFuel b₁ order) ⟨best, b₁, order⟩ = true := by
  obtain ⟨best, b₁, -, hbest, -, -, dropped, tl, hc, -⟩ := h.bestprice s
  rw [testsOpen, hbest, Bool.and_eq_true, decide_eq_true_eq] at hopen
  refine ⟨best, b₁, hbest, hc.bestprice_eq, fun ht => ?_, hopen.2⟩
  obtain ⟨hheap, hguard⟩ := hopen.1 ht
  exact ⟨hc.eq_of_heap h.wf hbest hheap, hguard⟩

/-- An open call does what it would do without the first test. -/
theorem processLimit_eq_limitPath (h : Alike ids b b') (id : ℕ)
    (hopen : testsOpen b t.opposite (fun p => decide (better t.opposite p order.price)) order =
      true) :
    processLimit t id b order = limitPath t id b order := by
  obtain ⟨best, b₁, hbest, hagain, hzero, -⟩ := testsOpen_spec h hopen
  rw [processLimit, limitPath]
  by_cases ht : b.getTotalQty t.opposite = 0
  · obtain ⟨rfl, hguard⟩ := hzero ht
    have hno : ¬better t.opposite best order.price := by simpa using hguard
    rw [if_pos ht, hbest, ok_bind]
    exact (if_pos hno).symm
  · rw [if_neg ht, hbest, ok_bind, ok_bind]
    refine if_congr Iff.rfl rfl ?_
    rw [hagain]
    rfl

theorem processMarket_eq_marketPath (h : Alike ids b b') (id : ℕ)
    (hopen : testsOpen b t.opposite (fun p => decide (b.isPriceValid p)) order = true) :
    processMarket t id b order = marketPath t id b order := by
  obtain ⟨best, b₁, hbest, -, hzero, -⟩ := testsOpen_spec h hopen
  rw [processMarket, marketPath]
  by_cases ht : b.getTotalQty t.opposite = 0
  · obtain ⟨rfl, hguard⟩ := hzero ht
    have hstop : ¬(0 < order.quantity ∧ 0 < b₁.getTotalQty t.opposite ∧
        decide (b₁.isPriceValid best) = true) := by
      rw [hguard]
      simp
    rw [if_pos ht, hbest, ok_bind]
    simp only [matchFuel, matchLoop, if_neg hstop, ok_bind]
  · rw [if_neg ht]

/-- Alike books, after calls that have made the same executions. -/
def SameCall (ids : List ℕ) (r r' : Processed) : Prop :=
  Alike ids r.1 r'.1 ∧ r'.2 = r.2

theorem limitPath_alike (h : Alike ids b b') (id : ℕ) (hnew : order.orderId ∉ ids)
    (hopen : testsOpen b t.opposite (fun p => decide (better t.opposite p order.price)) order =
      true)
    (hopen' : testsOpen b' t.opposite (fun p => decide (better t.opposite p order.price)) order =
      true) :
    SameOutcome (SameCall (order.orderId :: ids)) (limitPath t id b order)
      (limitPath t id b' order) := by
  obtain ⟨best, b₁, b₁', hbest, hbest', h₁, -⟩ := h.bestprice t.opposite
  obtain ⟨_, _, hbest₀, -, -, hloop⟩ := testsOpen_spec h hopen
  obtain ⟨rfl, rfl⟩ := Prod.mk.inj (Except.ok.inj (hbest.symm.trans hbest₀))
  have hloop' : loopOpen t.opposite (fun p => decide (better t.opposite p order.price))
      (matchFuel b₁' order) ⟨best, b₁', order⟩ = true := by
    rw [testsOpen, hbest', Bool.and_eq_true] at hopen'
    exact hopen'.2
  have hfuel : matchFuel b₁' order = matchFuel b₁ order := by
    rw [matchFuel, matchFuel, h₁.used]
  rw [hfuel] at hloop'
  rw [limitPath, limitPath, hbest, hbest']
  simp only [ok_bind, hfuel]
  by_cases hc : better t.opposite best order.price
  · rw [if_neg (not_not.2 hc), if_neg (not_not.2 hc)]
    refine (matchLoop_alike id h₁ hloop hloop').bind ?_
    intro r r' hr
    have hkeep : Alike (order.orderId :: ids) r.book r'.book :=
      hr.book.mono fun id hid => List.mem_cons_of_mem _ hid
    rw [hr.remainder, hr.executions]
    cases hrem : r.remainder with
    | none => exact .ok ⟨hkeep, rfl⟩
    | some o =>
      have hid : o.orderId = order.orderId := hr.orderId o hrem
      simp only []
      by_cases hq : 0 < o.quantity
      · obtain ⟨accepted, b₂, b₂', hadd, hadd', h₂⟩ := hr.book.addOrder t (hid ▸ hnew)
        rw [if_pos hq, if_pos hq, hadd, hadd']
        exact .ok ⟨hid ▸ h₂, rfl⟩
      · rw [if_neg hq, if_neg hq]
        exact .ok ⟨hkeep, rfl⟩
  · obtain ⟨accepted, b₂, b₂', hadd, hadd', h₂⟩ := h₁.addOrder t hnew
    rw [if_pos hc, if_pos hc, hadd, hadd']
    exact .ok ⟨h₂, rfl⟩

theorem marketPath_alike (h : Alike ids b b') (id : ℕ)
    (hopen : testsOpen b t.opposite (fun p => decide (b.isPriceValid p)) order = true)
    (hopen' : testsOpen b' t.opposite (fun p => decide (b'.isPriceValid p)) order = true) :
    SameOutcome (SameCall ids) (marketPath t id b order) (marketPath t id b' order) := by
  obtain ⟨best, b₁, b₁', hbest, hbest', h₁, _, _, hc, hc'⟩ := h.bestprice t.opposite
  have hvalid : ∀ {c : OrderBook}, SameFrame b c →
      (fun p => decide (c.isPriceValid p)) = fun p => decide (b.isPriceValid p) := by
    intro c hframe
    ext p
    rw [decide_eq_decide, hframe.isPriceValid_iff]
  rw [hvalid h.frame] at hopen'
  rw [testsOpen, hbest, Bool.and_eq_true] at hopen
  rw [testsOpen, hbest', Bool.and_eq_true] at hopen'
  have hfuel : matchFuel b₁' order = matchFuel b₁ order := by
    rw [matchFuel, matchFuel, h₁.used]
  have hloop' := hopen'.2
  rw [hfuel] at hloop'
  rw [marketPath, marketPath, hbest, hbest']
  simp only [ok_bind, hfuel, hvalid hc.frame, hvalid (h.frame.trans hc'.frame)]
  refine (matchLoop_alike id h₁ hopen.2 hloop').bind ?_
  intro r r' hr
  exact .ok ⟨hr.book, hr.executions⟩

/-- Open calls on alike books make the same executions and leave the books alike. -/
theorem processOrder_alike (h : Alike ids b b') (id : ℕ) (hnew : order.orderId ∉ ids)
    (hopen : Open b order) (hopen' : Open b' order) :
    SameOutcome (SameCall (order.orderId :: ids)) (processOrder id b order)
      (processOrder id b' order) := by
  have hkeep : ∀ {r r' : Processed}, SameCall ids r r' → SameCall (order.orderId :: ids) r r' :=
    fun hr => ⟨hr.1.mono fun id hid => List.mem_cons_of_mem _ hid, hr.2⟩
  rw [processOrder, processOrder]
  by_cases hm : order.executionType = .market
  · rw [Open, if_pos hm] at hopen hopen'
    have hmarket := (marketPath_alike h id hopen hopen').imp hkeep
    rw [← processMarket_eq_marketPath h id hopen, ← processMarket_eq_marketPath h.symm id
      hopen'] at hmarket
    rw [if_pos hm, if_pos hm]
    cases htype : order.type <;> rw [htype] at hmarket <;> exact hmarket
  · rw [Open, if_neg hm] at hopen hopen'
    rw [if_neg hm, if_neg hm]
    by_cases hv : b.isPriceValid order.price
    · have hv' := (h.frame.isPriceValid_iff _).2 hv
      have hlimit := limitPath_alike h id hnew (hopen hv) (hopen' hv')
      rw [← processLimit_eq_limitPath h id (hopen hv),
        ← processLimit_eq_limitPath h.symm id (hopen' hv')] at hlimit
      rw [if_neg (not_not.2 hv), if_neg (not_not.2 hv')]
      cases htype : order.type <;> rw [htype] at hlimit <;> exact hlimit
    · have hv' := mt (h.frame.isPriceValid_iff _).1 hv
      rw [if_pos hv, if_pos hv']
      exact .ok (hkeep ⟨h, rfl⟩)

end Calls

/-! ## Runs -/

/-- A fresh book in storage that holds `mem`, and the first trade id of a group. -/
def EngineState.start (mem : Storage) (poolSize lower upper : ℕ) : EngineState where
  book := OrderBook.new mem poolSize lower upper
  tradeId := 1
  published := []

/-- Two engines that have published the same trades from alike books. -/
structure SameRun (ids : List ℕ) (st st' : EngineState) : Prop where
  book : Alike ids st.book st'.book
  tradeId : st'.tradeId = st.tradeId
  published : st'.published = st.published

theorem sameRun_start (mem mem' : Storage) {poolSize : ℕ} (lower upper : ℕ)
    (h0 : 1 ≤ poolSize) (h1 : poolSize < 2 ^ 31) :
    SameRun [] (EngineState.start mem poolSize lower upper)
      (EngineState.start mem' poolSize lower upper) := by
  have hwf : ∀ mem, (OrderBook.new mem poolSize lower upper).WF :=
    fun mem => ⟨_, _, new_linked mem lower upper h0 h1⟩
  refine ⟨⟨hwf mem, hwf mem', ⟨rfl, rfl, rfl, rfl, fun _ => rfl⟩, fun _ => rfl,
    fun _ => rfl, fun _ => rfl, rfl, fun s => List.mem_singleton.2 rfl,
    fun s p hp hne => absurd (List.mem_singleton.1 hp) hne,
      fun i o ho => absurd ho List.not_mem_nil⟩,
    rfl, rfl⟩

/-- An open call in both runs. -/
theorem SameRun.step {ids : List ℕ} {st st' : EngineState} {order : Order}
    (h : SameRun ids st st')
    (hnew : order.orderId ∉ ids) (hopen : Open st.book order) (hopen' : Open st'.book order) :
    SameOutcome (SameRun (order.orderId :: ids)) (st.step order) (st'.step order) := by
  rw [EngineState.step, EngineState.step, h.tradeId]
  refine (processOrder_alike h.book st.tradeId hnew hopen hopen').bind ?_
  rintro ⟨book, executions⟩ ⟨book', executions'⟩ ⟨hbook, hexec⟩
  obtain rfl : executions' = executions := hexec
  exact .ok ⟨hbook, rfl, by rw [h.published]⟩

theorem SameRun.run : ∀ {orders : List Order} {ids : List ℕ} {st st' : EngineState},
    SameRun ids st st' → (ids ++ orders.map Order.orderId).Nodup →
    Always (fun st o st' => EngineState.step st o = .ok st')
      (fun st o => Open st.book o) st orders →
    Always (fun st o st' => EngineState.step st o = .ok st')
      (fun st o => Open st.book o) st' orders →
    SameOutcome (fun st st' => ∃ ids, SameRun ids st st') (st.run orders) (st'.run orders)
  | [], ids, _, _, h, _, _, _ => .ok ⟨ids, h⟩
  | order :: orders, ids, st, st', h, hids, hopen, hopen' => by
    have hnew : order.orderId ∉ ids := by
      rw [List.nodup_append] at hids
      exact fun hmem => hids.2.2 _ hmem _ (by simp) rfl
    have hstep := h.step hnew hopen.head hopen'.head
    rcases hstep.cases with ⟨st₁, st₁', hst₁, hst₁', h₁⟩ | ⟨e, he, he'⟩
    · have hids₁ : (order.orderId :: ids ++ orders.map Order.orderId).Nodup := by
        rw [List.map_cons] at hids
        exact (List.perm_middle.nodup_iff).1 hids
      have hrun := SameRun.run h₁ hids₁ (hopen.tail hst₁) (hopen'.tail hst₁')
      rw [EngineState.run, EngineState.run, List.foldlM_cons, List.foldlM_cons, hst₁, hst₁']
      exact hrun
    · rw [EngineState.run, EngineState.run, List.foldlM_cons, List.foldlM_cons, he, he']
      exact .error e

/-- Two runs of the same orders, in storage with any contents, publish the same trades and end with
the same resting orders, or both stop at the same call, if all calls of both are open. -/
theorem run_alike (mem mem' : Storage) {poolSize : ℕ} (lower upper : ℕ) {orders : List Order}
    (h0 : 1 ≤ poolSize) (h1 : poolSize < 2 ^ 31) (hids : (orders.map Order.orderId).Nodup)
    (hopen : Always (fun st o st' => EngineState.step st o = .ok st') (fun st o => Open st.book o)
      (EngineState.start mem poolSize lower upper) orders)
    (hopen' : Always (fun st o st' => EngineState.step st o = .ok st') (fun st o => Open st.book o)
      (EngineState.start mem' poolSize lower upper) orders) :
    SameOutcome (fun st st' => st'.published = st.published ∧
      ∀ i, st'.book.queue i = st.book.queue i)
      ((EngineState.start mem poolSize lower upper).run orders)
      ((EngineState.start mem' poolSize lower upper).run orders) := by
  refine ((sameRun_start mem mem' lower upper h0 h1).run (by simpa using hids) hopen hopen').imp ?_
  rintro st st' ⟨ids, h⟩
  exact ⟨h.published, h.book.queue⟩

/-! ## Totals that are zero -/

/-- The tests of a loop are open on a book whose totals are those of its resting orders, if the
sentinel is not accepted. -/
theorem loopOpen_of_represents {s : OrderType} {guard : ℕ → Bool} :
    ∀ (l : List Order) {b : OrderBook} {R : PriceTime.Book} (_ : Represents b R) (_ : R s = l)
    (_ : guard (b.side s).defaultBestPrice = false) (fuel : ℕ) (order : Order),
    loopOpen s guard fuel ⟨bestOf b s l, b, order⟩ = true
  | _, _, _, _, _, _, 0, _ => rfl
  | [], b, R, _, _, hs, fuel + 1, order => by
    have hstop : ¬(0 < order.quantity ∧ guard (bestOf b s []) = true) := by
      rw [bestOf, hs]
      simp
    rw [loopOpen, if_neg hstop]
  | o :: l, b, R, h, hR, hs, fuel + 1, order => by
    by_cases hc : 0 < order.quantity ∧ guard (bestOf b s (o :: l)) = true
    · have ht : 0 < b.getTotalQty s := by
        rw [Nat.pos_iff_ne_zero, ne_eq, h.total_eq_zero_iff s, hR]
        exact List.cons_ne_nil o l
      have hhead := h.headAt_first hR
      obtain ⟨b₁, b₂, hrm, hbest, hframe, hrep⟩ := h.fillHead_spec hR
      have hbo := bestOf_of_frame hframe s l
      have ih := loopOpen_of_represents l hrep (Function.update_self s l R)
        (by rw [hframe.sentinel]; exact hs) fuel
          { order with quantity := order.quantity - o.quantity }
      have hnext : (nextPass s ⟨bestOf b s (o :: l), b, order⟩).toOption = some
          ⟨bestOf b₂ s l, b₂, { order with quantity := order.quantity - o.quantity }⟩ := by
        have hfirst : bestOf b s (o :: l) = o.price := rfl
        rw [hfirst, nextPass_eq hhead hrm hbest, hbo]
        rfl
      rw [loopOpen, if_pos hc, Bool.and_eq_true, decide_eq_true_eq, hnext, Option.all_some, ih]
      exact ⟨ht, Bool.or_true _⟩
    · rw [loopOpen, if_neg hc]

theorem testsOpen_of_represents {b : OrderBook} {R : PriceTime.Book} (h : Represents b R)
    {s : OrderType} {guard : ℕ → Bool} (hs : guard (b.side s).defaultBestPrice = false)
    (order : Order) : testsOpen b s guard order = true := by
  rw [testsOpen, h.bestprice_eq, Bool.and_eq_true, decide_eq_true_eq]
  refine ⟨fun ht => ⟨rfl, ?_⟩, loopOpen_of_represents _ h rfl hs _ order⟩
  rw [(h.total_eq_zero_iff s).1 ht]
  exact hs

/-- In a narrow band the sentinels are no prices that an order accepts. -/
theorem Band.calls_open {poolSize lower upper : ℕ} (hb : Band poolSize lower upper)
    {mem : Storage} {b : OrderBook} (hf : SameFrame (.new mem poolSize lower upper) b)
    {R : PriceTime.Book}
    (h : Represents b R) (order : Order) : Open b order := by
  have hlow : b.lowerLimit = lower := hf.lower
  have hup : b.upperLimit = upper := hf.upper
  have hpos := hb.lower_pos
  have hlt := hb.upper_lt
  have hinvalid : ∀ s, ¬b.isPriceValid (b.side s).defaultBestPrice := by
    intro s
    have hs : (b.side s).defaultBestPrice = defaultBest lower upper s := hf.sentinel s
    rw [isPriceValid, hs, hlow, hup]
    cases s <;> simp only [defaultBest] <;> split_ifs <;> omega
  unfold Open
  split_ifs with hm
  · exact testsOpen_of_represents h (decide_eq_false (hinvalid _)) order
  · intro hv
    refine testsOpen_of_represents h (decide_eq_false fun hbetter => ?_) order
    have hfit := hb.fits hf hv order.type.opposite
    exact hfit.ne_sentinel (better_antisymm hfit.better_sentinel hbetter)

/-- In a narrow band, with open calls, a run does what it does with totals that start at zero, which
is what the reference matcher does. -/
theorem run_eq_zeroed (nodes : ℕ → OrderNode) (mem : Storage) {poolSize lower upper : ℕ}
    (hb : Band poolSize lower upper) {orders : List Order} (ho : Orderly orders)
    (hopen : Always (fun st o st' => EngineState.step st o = .ok st') (fun st o => Open st.book o)
      (EngineState.start mem poolSize lower upper) orders) :
    ∃ st st', (EngineState.init nodes poolSize lower upper).run orders = .ok st ∧
      (EngineState.start mem poolSize lower upper).run orders = .ok st' ∧
      st'.published = st.published ∧ ∀ i, st'.book.queue i = st.book.queue i := by
  obtain ⟨st, hrun, -⟩ := hb.run_spec ho nodes
  have hzero : Always (fun st o st' => EngineState.step st o = .ok st') (fun st o => Open st.book o)
      (EngineState.init nodes poolSize lower upper) orders := by
    rintro before order after st₁ rfl hsteps
    have hbefore : Orderly before := ho.sublist (List.sublist_append_left _ _)
    obtain ⟨st₂, hrun₂, hsim, -⟩ := hb.run_spec hbefore nodes
    obtain rfl : st₁ = st₂ := Except.ok.inj ((steps_iff_ok.1 hsteps).symm.trans hrun₂)
    exact hb.calls_open hsim.frame hsim.represents order
  have hstart := sameRun_start ⟨nodes, fun _ => 0⟩ mem lower upper hb.pool_pos hb.pool_lt
  rcases (hstart.run (by simpa using ho.ids) hzero hopen).cases with
    ⟨st₁, st', hrun₁, hrun', ids, hsame⟩ | ⟨e, he, -⟩
  · exact ⟨st₁, st', hrun₁, hrun', hsame.published, hsame.book.queue⟩
  · exact absurd (he.symm.trans hrun) (by simp)

/-- Storage whose totals happen to be these. -/
def storageWith (buyQty sellQty : ℕ) : Storage where
  nodes := zeroNodes
  totalQty
    | .buy => buyQty
    | .sell => sellQty

theorem run_alike_sweep :
    SameOutcome (fun st st' => st'.published = st.published ∧
      ∀ i, st'.book.queue i = st.book.queue i)
      ((EngineState.start (storageWith 0 0) 4 100 105).run sweep)
      ((EngineState.start (storageWith 7 (2 ^ 64 - 11)) 4 100 105).run sweep) :=
  run_alike (storageWith 0 0) (storageWith 7 (2 ^ 64 - 11)) 100 105 (by decide) (by decide)
    (by decide) (always_of_allowed_ok (by decide +kernel))
    (always_of_allowed_ok (by decide +kernel))

/-- Two orders of five units that cross. -/
def crossingOrders : List Order :=
  [limitOrder 1 .sell 100 5, limitOrder 2 .buy 100 5]

/-- With `2 ^ 64 - 5` in the storage the five units of the sell make its total zero, and the buy
rests beside it. -/
theorem storage_seen :
    (∀ o ∈ crossingOrders, 0 < o.quantity) ∧ (crossingOrders.map Order.orderId).Nodup ∧
    ∃ st st', (EngineState.start (storageWith 0 0) 4 100 105).run crossingOrders = .ok st ∧
      (EngineState.start (storageWith 0 (2 ^ 64 - 5)) 4 100 105).run crossingOrders = .ok st' ∧
      st.published.map (fun e => e.trade.quantity) = [5] ∧ st'.published = [] ∧
      st.book.queue 0 = [] ∧ st'.book.queue 0 = [limitOrder 1 .sell 100 5,
        limitOrder 2 .buy 100 5] := by
  have hview : ((EngineState.start (storageWith 0 0) 4 100 105).run crossingOrders).map (fun st =>
      (st.published.map (fun e => e.trade.quantity), st.book.queue 0)) = .ok ([5], []) := by
    decide +kernel
  have hview' : ((EngineState.start (storageWith 0 (2 ^ 64 - 5)) 4 100 105).run crossingOrders).map
      (fun st => (st.published, st.book.queue 0)) =
      .ok ([], [limitOrder 1 .sell 100 5, limitOrder 2 .buy 100 5]) := by
    decide +kernel
  obtain ⟨st, hrun, hst⟩ := map_eq_ok.1 hview
  obtain ⟨st', hrun', hst'⟩ := map_eq_ok.1 hview'
  obtain ⟨hpub, hq⟩ := Prod.mk.inj hst
  obtain ⟨hpub', hq'⟩ := Prod.mk.inj hst'
  exact ⟨by decide, by decide, st, st', hrun, hrun', hpub, hpub', hq, hq'⟩

end TradeX
