import TradeX.Executions
import Mathlib.Data.List.Induction

/-!
# Runs of the engine

From a fresh book in a narrow band, every sequence of `process_order` calls with positive
quantities and distinct ids returns, and does what the reference matcher does
(`run_eq_priceTime`). The book it leaves satisfies the invariant of the source's design
(`BookInvariant`) : flags, heaps, totals and levels agree, and the book is not crossed.
-/

namespace TradeX

open PriceTime

/-! ## Bands -/

/-- A band of fewer than `2 ^ 31` prices, away from both ends of the 64-bit range, and a
pool whose indices are nonnegative as `int`s. -/
structure Band (poolSize lower upper : ℕ) : Prop where
  pool_pos : 1 ≤ poolSize
  pool_lt : poolSize < 2 ^ 31
  lower_pos : 1 ≤ lower
  lower_le : lower ≤ upper
  upper_lt : upper < 2 ^ 64 - 1
  width_lt : upper - lower < 2 ^ 31

/-- Below `lower + 2 ^ 31` no price is truncated. -/
theorem OrderBook.priceToIndex_eq {b : OrderBook} {p : ℕ} (h : b.lowerLimit ≤ p)
    (h' : p - b.lowerLimit < 2 ^ 31) : b.priceToIndex p = (p - b.lowerLimit : ℕ) := by
  unfold OrderBook.priceToIndex
  simp only [Int.bmod_def]
  omega

theorem numPriceLevels_new (mem : Storage) (poolSize : ℕ) {lower upper : ℕ}
    (h : lower ≤ upper) (hw : upper - lower < 2 ^ 64 - 1) :
    (OrderBook.new mem poolSize lower upper).numPriceLevels = upper - lower + 1 := by
  simp only [OrderBook.new, add64, sub64]
  omega

/-- In a band of fewer than `2 ^ 31` prices every valid price has a level of its own, and the
sentinels are no better. -/
theorem fitsUpTo_new {mem : Storage} {poolSize lower upper : ℕ} (hle : lower ≤ upper)
    (hlt : upper < 2 ^ 64) (hw : upper - lower < 2 ^ 31) {b : OrderBook}
    (hf : OrderBook.SameFrame (OrderBook.new mem poolSize lower upper) b) {p : ℕ}
    (hv : b.isPriceValid p) (s : OrderType) : OrderBook.FitsUpTo True b s p := by
  have hlow : b.lowerLimit = lower := hf.lower
  have hup : b.upperLimit = upper := hf.upper
  have hn : b.numPriceLevels = upper - lower + 1 := by
    rw [hf.levels]
    exact numPriceLevels_new mem poolSize hle (by omega)
  have hsent : (b.side s).defaultBestPrice = OrderBook.defaultBest lower upper s := hf.sentinel s
  obtain ⟨h1, h2⟩ := hv
  rw [hlow] at h1
  rw [hup] at h2
  refine ⟨⟨by omega, by omega⟩, OrderBook.priceToIndex_eq (by omega) (by omega), by omega, ?_,
    fun _ => trivial⟩
  rw [hsent]
  cases s <;> simp only [OrderBook.defaultBest, better] <;> split_ifs <;> omega

/-- In a narrow band every valid price fits the book. -/
theorem Band.fits {poolSize lower upper : ℕ} (h : Band poolSize lower upper) {mem : Storage}
    {b : OrderBook} (hf : OrderBook.SameFrame (OrderBook.new mem poolSize lower upper) b)
    {p : ℕ} (hv : b.isPriceValid p) (s : OrderType) : b.Fits s p := by
  have hlow : b.lowerLimit = lower := hf.lower
  have hup : b.upperLimit = upper := hf.upper
  have hpos := h.lower_pos
  have hlt := h.upper_lt
  have hfit := fitsUpTo_new h.lower_le (by omega) h.width_lt hf hv s
  have hsent : (b.side s).defaultBestPrice = OrderBook.defaultBest lower upper s := hf.sentinel s
  refine ⟨hv, hfit.index, hfit.level, hfit.better_sentinel, ?_⟩
  obtain ⟨h1, h2⟩ := hv
  rw [hsent]
  cases s <;> simp only [OrderBook.defaultBest] <;> split_ifs <;> omega

/-- A fresh book represents two empty lists. -/
theorem represents_new (nodes : ℕ → OrderNode) {poolSize : ℕ} (lower upper : ℕ)
    (h0 : 1 ≤ poolSize) (h1 : poolSize < 2 ^ 31) :
    Represents (EngineState.init nodes poolSize lower upper).book fun _ => [] := by
  have hlink := OrderBook.new_linked ⟨nodes, fun _ => 0⟩ lower upper h0 h1
  have hq : ∀ i, (EngineState.init nodes poolSize lower upper).book.queue i = [] := fun _ => rfl
  refine ⟨⟨_, _, hlink⟩, fun i => ?_, fun i => ?_, fun s => ?_, fun s p => ?_, fun _ => rfl,
    rfl, fun _ => List.Pairwise.nil, fun _ o ho => absurd ho List.not_mem_nil,
    fun o ho => absurd ho List.not_mem_nil⟩
  · rw [hq]
    rfl
  · rw [hq]
    simp [OrderBook.flag, EngineState.init, OrderBook.new, PriceQueues.empty]
  · exact List.pairwise_singleton _ _
  · simp [EngineState.init, OrderBook.new]

theorem simulates_init (nodes : ℕ → OrderNode) {poolSize : ℕ} (lower upper : ℕ)
    (h0 : 1 ≤ poolSize) (h1 : poolSize < 2 ^ 31) :
    Simulates (OrderBook.new ⟨nodes, fun _ => 0⟩ poolSize lower upper)
      (EngineState.init nodes poolSize lower upper) PriceTime.State.init :=
  ⟨.refl _, represents_new nodes lower upper h0 h1, rfl, rfl⟩

/-! ## Positive quantities in a narrow band -/

/-- Orders with distinct ids and positive 32-bit quantities. -/
structure Orderly (orders : List Order) : Prop where
  ids : (orders.map Order.orderId).Nodup
  positive : ∀ o ∈ orders, 0 < o.quantity
  inRange : ∀ o ∈ orders, o.InRange

theorem Orderly.sublist {l l' : List Order} (h : Orderly l) (hsub : l'.Sublist l) : Orderly l' :=
  ⟨h.ids.sublist (hsub.map _), fun o ho => h.positive o (hsub.subset ho),
    fun o ho => h.inRange o (hsub.subset ho)⟩

section Narrow

variable {poolSize lower upper : ℕ} {orders : List Order}

theorem Band.admissible (hb : Band poolSize lower upper) {mem : Storage} {b : OrderBook}
    (hf : OrderBook.SameFrame (OrderBook.new mem poolSize lower upper) b) {order : Order}
    (hpos : 0 < order.quantity) : Admissible b order := by
  intro _ hv _
  exact ⟨hb.fits hf hv _, fun h0 => absurd h0 hpos.ne'⟩

/-- In a narrow band a call does to the lists what the reference matcher does. -/
theorem Band.applyOn_eq (hb : Band poolSize lower upper) {mem : Storage} {b : OrderBook}
    (hf : OrderBook.SameFrame (OrderBook.new mem poolSize lower upper) b) (id : ℕ) (R : Book)
    (order : Order) : applyOn b id R order = PriceTime.process poolSize lower upper id R order := by
  have hlow : b.lowerLimit = lower := hf.lower
  have hup : b.upperLimit = upper := hf.upper
  have hcap : b.pool.capacity = poolSize := hf.capacity
  have hvalid : b.isPriceValid order.price ↔ lower ≤ order.price ∧ order.price ≤ upper := by
    rw [OrderBook.isPriceValid, hlow, hup]
  simp only [applyOn, PriceTime.process]
  by_cases hm : order.executionType = .market
  · simp only [if_pos hm, fillOf]
  · rw [if_neg hm, if_neg hm]
    by_cases hv : b.isPriceValid order.price
    · have hfit := hb.fits hf hv order.type
      have hlevel := OrderBook.hasLevel_of_index hfit.index hfit.level
      have hpart := @fill_order order.type.opposite
        (fun p => better order.type.opposite p order.price) _ id order (R order.type.opposite)
      rw [if_neg (not_not.2 hv), if_neg (not_not.2 (hvalid.1 hv))]
      simp only [fillOf, if_neg hm, restOn]
      rw [hpart.price, if_pos hlevel, hcap, hpart.type]
    · rw [if_pos hv, if_pos (mt hvalid.2 hv)]

/-- A run in a narrow band does what the reference matcher does, and its executions are
sound. -/
theorem Band.run_spec (hb : Band poolSize lower upper) (ho : Orderly orders)
    (nodes : ℕ → OrderNode) :
    ∃ st, (EngineState.init nodes poolSize lower upper).run orders = .ok st ∧
      Simulates (OrderBook.new ⟨nodes, fun _ => 0⟩ poolSize lower upper) st
        (PriceTime.State.init.run poolSize lower upper orders) ∧
      ∀ e ∈ st.published, e.Sound orders := by
  obtain ⟨st, a, hrun, hsim, -, ha, hsound⟩ := Simulates.run
    (P := fun done a => a = PriceTime.State.init.run poolSize lower upper done ∧
      ∀ e ∈ a.published, e.Sound done)
    (A := fun _ orders => ∀ o ∈ orders, 0 < o.quantity)
    (fun {st a order orders} h hA => ⟨hb.admissible h.frame (hA order List.mem_cons_self),
      fun _ _ o ho => hA o (List.mem_cons_of_mem _ ho)⟩)
    (fun {st a done order} h hfrom hP => by
      refine ⟨?_, sound_of_mem_applyStep h.represents hfrom hP.2⟩
      rw [PriceTime.State.run_append, ← hP.1]
      simp only [applyStep, PriceTime.State.step, hb.applyOn_eq h.frame])
    orders [] (simulates_init nodes lower upper hb.pool_pos hb.pool_lt)
    (fun _ o ho => absurd ho List.not_mem_nil) ⟨rfl, fun e he => absurd he List.not_mem_nil⟩
    (by simpa using ho.ids) ho.inRange ho.positive
  rw [List.nil_append] at ha hsound
  exact ⟨st, hrun, ha ▸ hsim, hsim.published ▸ hsound⟩

end Narrow

/-! ## Trade ids -/

namespace PriceTime

/-- The trade ids of a list of executions count up from `id`. -/
def NumberedFrom (id : ℕ) (l : List Execution) : Prop :=
  ∀ i e, l[i]? = some e → e.trade.tradeId = (id + i) % 2 ^ 64

theorem numberedFrom_append {id : ℕ} {l l' : List Execution} (h : NumberedFrom id l)
    (h' : NumberedFrom ((id + l.length) % 2 ^ 64) l') : NumberedFrom id (l ++ l') := by
  intro i e he
  rcases Nat.lt_or_ge i l.length with hi | hi
  · rw [List.getElem?_append_left hi] at he
    exact h i e he
  · rw [List.getElem?_append_right hi] at he
    rw [h' _ e he]
    omega

theorem numberedFrom_fill {s : OrderType} {accepts : ℕ → Prop} [DecidablePred accepts] :
    ∀ (id : ℕ) (order : Order) (l : List Order), id < 2 ^ 64 →
      NumberedFrom id (fill s accepts id order l).executions
  | _, _, [], _, _, e, he => by simp [fill] at he
  | id, order, o :: l, hid, i, e, he => by
    have hone : ∀ qty, (execute s id o.price qty order o).trade.tradeId = (id + 0) % 2 ^ 64 :=
      fun _ => (Nat.mod_eq_of_lt hid).symm
    rw [fill] at he
    split_ifs at he
    · cases i with
      | zero =>
        obtain rfl : execute s id o.price order.quantity order o = e := by simpa using he
        exact hone _
      | succ i => simp at he
    · cases i with
      | zero =>
        obtain rfl : execute s id o.price o.quantity order o = e := by simpa using he
        exact hone _
      | succ i =>
        have ih := numberedFrom_fill (nextTradeId id) _ l (Nat.mod_lt _ (by decide)) i e
          (by simpa using he)
        rw [ih, nextTradeId, add64]
        omega
    · simp at he

theorem numberedFrom_process (capacity lower upper : ℕ) {id : ℕ} (hid : id < 2 ^ 64) (R : Book)
    (order : Order) : NumberedFrom id (process capacity lower upper id R order).2 := by
  simp only [process]
  split_ifs
  · exact numberedFrom_fill id order _ hid
  · exact numberedFrom_fill id order _ hid
  · exact fun _ _ he => by simp at he

/-- The trades of a run are numbered from 1, and the next id is the one after the last. -/
theorem numberedFrom_run (capacity lower upper : ℕ) (orders : List Order) :
    NumberedFrom 1 (State.init.run capacity lower upper orders).published ∧
      (State.init.run capacity lower upper orders).tradeId =
        (1 + (State.init.run capacity lower upper orders).published.length) % 2 ^ 64 := by
  induction orders using List.reverseRecOn with
  | nil => exact ⟨fun _ _ he => by simp [State.run, State.init] at he, rfl⟩
  | append_singleton orders order ih =>
    obtain ⟨hnum, hid⟩ := ih
    rw [State.run_append]
    refine ⟨numberedFrom_append hnum (hid ▸ numberedFrom_process _ _ _ ?_ _ _), ?_⟩
    · rw [hid]
      exact Nat.mod_lt _ (by decide)
    · simp only [State.step, add64, List.length_append, hid]
      omega

end PriceTime

/-! ## The engine is the reference matcher -/

section Narrow

variable {poolSize lower upper : ℕ} {orders : List Order}

/-- Every run returns, with the trades of the reference matcher, numbered from 1. The queue
of every level holds the reference matcher's orders of that price, first to last, and these
are all its orders : every one has a level. Its two lists hold the orders of their side,
best price first. -/
theorem run_eq_priceTime (nodes : ℕ → OrderNode) (hb : Band poolSize lower upper)
    (ho : Orderly orders) :
    ∃ st, (EngineState.init nodes poolSize lower upper).run orders = .ok st ∧
      let ref := PriceTime.State.init.run poolSize lower upper orders
      st.published = ref.published ∧
      (∀ i e, st.published[i]? = some e → e.trade.tradeId = (1 + i) % 2 ^ 64) ∧
      (∀ i, st.book.queue i = ref.book.at (lower + i)) ∧
      (∀ s, ∀ o ∈ ref.book s, o.type = s ∧ lower ≤ o.price ∧ o.price ≤ upper) ∧
      ∀ s, (ref.book s).Pairwise fun o o' => better s o.price o'.price := by
  obtain ⟨st, hrun, hsim, -⟩ := hb.run_spec ho nodes
  have hlow : st.book.lowerLimit = lower := hsim.frame.lower
  have hup : st.book.upperLimit = upper := hsim.frame.upper
  refine ⟨st, hrun, hsim.published, ?_, fun i => ?_, fun s o ho => ?_, hsim.represents.sorted⟩
  · rw [hsim.published]
    exact (PriceTime.numberedFrom_run poolSize lower upper orders).1
  · rw [hsim.represents.queue, hlow]
  · obtain ⟨htype, -, -, hfit⟩ := hsim.represents.resting s o ho
    have hv := hfit.valid
    rw [OrderBook.isPriceValid, hlow, hup] at hv
    exact ⟨htype, hv⟩

end Narrow

/-- A limit order with id and client id `id`. -/
def limitOrder (id : ℕ) (type : OrderType) (price quantity : ℕ) : Order :=
  ⟨id, .limit, price, 0, 0, type, 0, quantity, id⟩

/-- Two sells at different prices and a buy that takes the first and part of the second. -/
def sweep : List Order :=
  [limitOrder 1 .sell 101 5, limitOrder 2 .sell 100 5, limitOrder 3 .buy 101 7]

/-- Storage that happens to hold zeros. -/
def zeroNodes : ℕ → OrderNode :=
  fun _ => ⟨limitOrder 0 .buy 0 0, 0, 0⟩

theorem band_sweep : Band 4 100 105 :=
  ⟨by decide, by decide, by decide, by decide, by decide, by decide⟩

theorem orderly_sweep : Orderly sweep :=
  ⟨by decide, by decide, by decide⟩

theorem run_sweep_eq_priceTime :
    Band 4 100 105 ∧ Orderly sweep ∧
    ∃ st, (EngineState.init zeroNodes 4 100 105).run sweep = .ok st ∧
      (st.published.map fun e => (e.trade.buyOrderId, e.trade.sellOrderId, e.trade.price,
        e.trade.quantity)) = [(3, 2, 100, 5), (3, 1, 101, 2)] ∧
      st.book.queue 1 = [limitOrder 1 .sell 101 3] := by
  obtain ⟨st, hrun, hpub, -, hq, -⟩ := run_eq_priceTime zeroNodes band_sweep orderly_sweep
  refine ⟨band_sweep, orderly_sweep, st, hrun, ?_, ?_⟩
  · rw [hpub]
    decide
  · rw [hq]
    decide

/-! ## The invariant of the book -/

/-- Everything that rests in the book, level by level. -/
def OrderBook.orders (b : OrderBook) : List Order :=
  (List.range b.numPriceLevels).flatMap b.queue

/-- The resting orders of side `s`. -/
def OrderBook.ordersOf (b : OrderBook) (s : OrderType) : List Order :=
  b.orders.filter fun o => o.type = s

/-- What the flags, the heaps and the totals of a book say about its levels. -/
structure BookInvariant (b : OrderBook) : Prop where
  level : ∀ i, ∀ o ∈ b.queue i, i < b.numPriceLevels ∧ o.price = b.lowerLimit + i
  one_side : ∀ i, ∃ s, ∀ o ∈ b.queue i, o.type = s
  flag : ∀ i, b.flag i = true ↔ b.queue i ≠ []
  heap_nodup : ∀ s, (b.side s).nextPrice.Nodup
  heap_mem : ∀ s p, p ∈ (b.side s).nextPrice ↔ p = (b.side s).defaultBestPrice ∨
    ∃ i, p = b.lowerLimit + i ∧ ∃ o ∈ b.queue i, o.type = s
  total : ∀ s, b.getTotalQty s = ((b.ordersOf s).map Order.quantity).sum
  uncrossed : ∀ o ∈ b.ordersOf .buy, ∀ o' ∈ b.ordersOf .sell, o.price < o'.price
  positive : ∀ o ∈ b.orders, 0 < o.quantity

/-- Sorting a list into the fibres of `f` permutes it. -/
theorem flatMap_filter_perm {α : Type} (f : α → ℕ) :
    ∀ (n : ℕ) (l : List α), (∀ a ∈ l, f a < n) →
    ((List.range n).flatMap fun i => l.filter fun a => f a = i).Perm l
  | 0, l, h => by
    rw [List.eq_nil_iff_forall_not_mem.2 fun a ha => absurd (h a ha) (Nat.not_lt_zero _)]
    exact .refl _
  | n + 1, l, h => by
    have ih := flatMap_filter_perm f n (l.filter fun a => !decide (f a = n)) fun a ha => by
      obtain ⟨hl, hne⟩ := List.mem_filter.1 ha
      have := h a hl
      have : f a ≠ n := by simpa using hne
      omega
    have hrest : ((List.range n).flatMap fun i => l.filter fun a => decide (f a = i)) =
        (List.range n).flatMap fun i =>
          (l.filter fun a => !decide (f a = n)).filter fun a => decide (f a = i) := by
      refine List.flatMap_congr fun i hi => ?_
      rw [List.filter_filter]
      refine List.filter_congr fun a _ => ?_
      have := List.mem_range.1 hi
      by_cases ha : f a = i
      · simp [ha]
        omega
      · simp [ha]
    rw [List.range_succ, List.flatMap_append, hrest, List.flatMap_singleton]
    exact (ih.append_right _).trans
      (List.perm_append_comm.trans (List.filter_append_perm (fun a => decide (f a = n)) l))

namespace Represents

variable {b : OrderBook} {R : PriceTime.Book}

theorem mem_queue (h : Represents b R) {i : ℕ} {o : Order} :
    o ∈ b.queue i ↔ ∃ s, o ∈ R s ∧ o.price = b.lowerLimit + i :=
  (represents_iff.1 h).mem_queue

/-- The orders of side `s` in a level are those of the list of side `s`. -/
theorem queue_filter (h : Represents b R) (s : OrderType) (i : ℕ) :
    ((b.queue i).filter fun o => o.type = s) =
      (R s).filter fun o => o.price = b.lowerLimit + i := by
  have hsame : ((R s).filter fun o => o.type = s) = R s :=
    List.filter_eq_self.2 fun o ho => by simpa using (h.resting s o ho).1
  have hother : ((R s.opposite).filter fun o => o.type = s) = [] := by
    refine List.filter_eq_nil_iff.2 fun o ho => ?_
    rw [(h.resting _ o ho).1]
    simp
  rw [h.queue, PriceTime.Book.at, List.filter_comm, List.filter_append]
  cases s <;> simp only [OrderType.opposite] at hother <;> rw [hsame, hother] <;> simp

theorem ordersOf_perm (h : Represents b R) (s : OrderType) : (b.ordersOf s).Perm (R s) := by
  have hfib : b.ordersOf s = (List.range b.numPriceLevels).flatMap fun i =>
      (R s).filter fun o => o.price - b.lowerLimit = i := by
    rw [OrderBook.ordersOf, OrderBook.orders, List.filter_flatMap]
    refine List.flatMap_congr fun i _ => ?_
    rw [h.queue_filter]
    refine List.filter_congr fun o ho => ?_
    have hlow : b.lowerLimit ≤ o.price := (h.resting s o ho).2.2.2.valid.1
    simp only [decide_eq_decide]
    omega
  rw [hfib]
  exact flatMap_filter_perm (fun o => o.price - b.lowerLimit) _ _
    fun o ho => (h.resting s o ho).2.2.2.level

theorem mem_orders (h : Represents b R) {o : Order} : o ∈ b.orders ↔ ∃ s, o ∈ R s := by
  constructor
  · intro ho
    obtain ⟨i, -, hi⟩ := List.mem_flatMap.1 ho
    obtain ⟨s, hs, -⟩ := h.mem_queue.1 hi
    exact ⟨s, hs⟩
  · rintro ⟨s, hs⟩
    exact (List.mem_filter.1 ((h.ordersOf_perm s).mem_iff.2 hs)).1

/-- A book that represents two priority lists satisfies the invariant. -/
theorem bookInvariant (h : Represents b R) : BookInvariant b where
  level i o ho := by
    obtain ⟨s, hs, hp⟩ := h.mem_queue.1 ho
    have := (h.resting s o hs).2.2.2.level
    exact ⟨by omega, hp⟩
  one_side i := by
    cases hq : b.queue i with
    | nil => exact ⟨.buy, fun o ho => absurd ho List.not_mem_nil⟩
    | cons o l =>
      obtain ⟨s, hs, hp⟩ := h.mem_queue.1 (hq ▸ List.mem_cons_self : o ∈ b.queue i)
      refine ⟨s, fun o' ho' => ?_⟩
      obtain ⟨r, hr, hp'⟩ := h.mem_queue.1 (hq ▸ ho')
      rcases OrderType.eq_or_eq_opposite s r with rfl | rfl
      · exact (h.resting _ o' hr).1
      · exact absurd (hp'.trans hp.symm) (h.price_ne hs hr)
  flag := h.flag
  heap_nodup s := (h.heap_sorted s).imp fun hpq => hpq.2
  heap_mem s p := by
    rw [h.heap_mem]
    refine or_congr_right ⟨?_, ?_⟩
    · rintro ⟨o, ho, rfl⟩
      obtain ⟨htype, -, -, hfit⟩ := h.resting s o ho
      have hp : o.price = b.lowerLimit + (o.price - b.lowerLimit) :=
        (Nat.add_sub_cancel' hfit.valid.1).symm
      exact ⟨_, hp, o, h.mem_queue.2 ⟨s, ho, hp⟩, htype⟩
    · rintro ⟨i, rfl, o, ho, htype⟩
      obtain ⟨r, hr, hp⟩ := h.mem_queue.1 ho
      obtain rfl : r = s := (h.resting r o hr).1.symm.trans htype
      exact ⟨o, hr, hp⟩
  total s := by
    rw [OrderBook.getTotalQty, h.total]
    exact ((h.ordersOf_perm s).map _).sum_nat.symm
  uncrossed o ho o' ho' :=
    h.uncrossed o ((h.ordersOf_perm _).mem_iff.1 ho) o' ((h.ordersOf_perm _).mem_iff.1 ho')
  positive o ho := by
    obtain ⟨s, hs⟩ := h.mem_orders.1 ho
    exact (h.resting s o hs).2.1

end Represents

/-- After every run the book satisfies the invariant. -/
theorem run_bookInvariant {poolSize lower upper : ℕ} {orders : List Order}
    (nodes : ℕ → OrderNode) (hb : Band poolSize lower upper) (ho : Orderly orders) :
    ∃ st, (EngineState.init nodes poolSize lower upper).run orders = .ok st ∧
      BookInvariant st.book := by
  obtain ⟨st, hrun, hsim, -⟩ := hb.run_spec ho nodes
  exact ⟨st, hrun, hsim.represents.bookInvariant⟩

theorem run_sweep_bookInvariant :
    Band 4 100 105 ∧ Orderly sweep ∧
    ∃ st, (EngineState.init zeroNodes 4 100 105).run sweep = .ok st ∧ BookInvariant st.book :=
  ⟨band_sweep, orderly_sweep, run_bookInvariant zeroNodes band_sweep orderly_sweep⟩

end TradeX
