import TradeX.EngineRuns

/-!
# Buying and selling mirror each other

Swapping the sides and reflecting the prices of a band in its middle turns a sequence of orders
into its mirror image. `fill_mirror`, `insert_mirror` and `process_mirror` say that the reference
matcher commutes with that. As the engine does what the reference matcher does,
`run_mirrored` : the mirrored sequence makes the mirrored trades and leaves the mirrored book.
-/

namespace TradeX

/-- The price as far from the upper end of the band as `p` is from the lower. -/
def reflect (lower upper p : ℕ) : ℕ :=
  lower + upper - p

/-- The order for the other side. The price of a market order is no limit and stays. -/
def Order.mirror (lower upper : ℕ) (o : Order) : Order :=
  { o with
    type := o.type.opposite
    price := if o.executionType = .market then o.price else reflect lower upper o.price }

/-- The trade with its sides exchanged, at the reflected price. -/
def Trade.mirror (lower upper : ℕ) (t : Trade) : Trade :=
  { t with
    price := reflect lower upper t.price
    buyOrderId := t.sellOrderId
    sellOrderId := t.buyOrderId }

/-- The execution with its sides exchanged. -/
def Execution.mirror (lower upper : ℕ) (e : Execution) : Execution where
  trade := e.trade.mirror lower upper
  side := e.side.opposite
  incoming := e.incoming.mirror lower upper
  resting := e.resting.mirror lower upper

namespace PriceTime

/-- A fill of the other side. -/
def Fill.mirror (lower upper : ℕ) (f : Fill) : Fill where
  executions := f.executions.map (Execution.mirror lower upper)
  opposite := f.opposite.map (Order.mirror lower upper)
  order := f.order.mirror lower upper

/-- The book with its sides exchanged. -/
def Book.mirror (lower upper : ℕ) (R : Book) : Book :=
  fun s => (R s.opposite).map (Order.mirror lower upper)

/-- The state with the sides of its book and of its trades exchanged. -/
def State.mirror (lower upper : ℕ) (st : State) : State where
  book := st.book.mirror lower upper
  tradeId := st.tradeId
  published := st.published.map (Execution.mirror lower upper)

/-- A limit order is priced in the band. -/
def Priced (lower upper : ℕ) (o : Order) : Prop :=
  o.executionType ≠ .market → lower ≤ o.price ∧ o.price ≤ upper

/-- An order that can rest : a limit order priced in the band. -/
def Limited (lower upper : ℕ) (o : Order) : Prop :=
  o.executionType ≠ .market ∧ lower ≤ o.price ∧ o.price ≤ upper

section Mirror

variable {lower upper : ℕ} {s : OrderType} {o o' order : Order} {l : List Order} {R : Book}

theorem Limited.price_mirror (h : Limited lower upper o) :
    (o.mirror lower upper).price = reflect lower upper o.price :=
  if_neg h.1

theorem Limited.of_partOf (h : Limited lower upper o') (hpart : o.PartOf o') :
    Limited lower upper o := by
  unfold Limited
  rw [hpart.executionType, hpart.price]
  exact h

/-- Reflection turns the order of the prices round, as the other side of the book does. -/
theorem better_reflect {p q : ℕ} (hp : lower ≤ p ∧ p ≤ upper)
    (hq : lower ≤ q ∧ q ≤ upper) :
    better s.opposite (reflect lower upper p) (reflect lower upper q) ↔ better s p q := by
  unfold reflect
  cases s with
  | buy =>
    simp only [OrderType.opposite, better]
    omega
  | sell =>
    simp only [OrderType.opposite, better]
    omega

theorem execute_mirror (ho : Limited lower upper o) (s : OrderType) (id qty : ℕ) (order : Order) :
    execute s.opposite id (o.mirror lower upper).price qty (order.mirror lower upper)
        (o.mirror lower upper) =
      (execute s id o.price qty order o).mirror lower upper := by
  rw [ho.price_mirror]
  cases s with
  | buy => rfl
  | sell => rfl

/-- The mirrored order fills against the mirrored list as the order against the list. -/
theorem fill_mirror (accepts accepts' : ℕ → Prop) [DecidablePred accepts]
    [DecidablePred accepts']
    (hacc : ∀ p, lower ≤ p ∧ p ≤ upper →
      (accepts' (reflect lower upper p) ↔ accepts p)) :
    ∀ (id : ℕ) (order : Order) (l : List Order), (∀ o ∈ l, Limited lower upper o) →
      fill s.opposite accepts' id (order.mirror lower upper) (l.map (Order.mirror lower upper)) =
        (fill s accepts id order l).mirror lower upper
  | _, _, [], _ => rfl
  | id, order, o :: l, hl => by
    have ho := hl o List.mem_cons_self
    have hguard : (0 < (order.mirror lower upper).quantity ∧
        accepts' (o.mirror lower upper).price) ↔
        0 < order.quantity ∧ accepts o.price := by
      rw [ho.price_mirror, hacc _ ho.2]
      rfl
    have hlt : (order.mirror lower upper).quantity < (o.mirror lower upper).quantity ↔
        order.quantity < o.quantity := Iff.rfl
    have ih := fill_mirror accepts accepts' hacc (nextTradeId id)
      { order with quantity := order.quantity - o.quantity } l
      fun o' ho' => hl o' (List.mem_cons_of_mem _ ho')
    rw [List.map_cons, fill, fill]
    by_cases hc : 0 < order.quantity ∧ accepts o.price
    · rw [if_pos hc, if_pos (hguard.2 hc)]
      by_cases hq : order.quantity < o.quantity
      · rw [if_pos hq, if_pos (hlt.2 hq), execute_mirror ho]
        rfl
      · rw [if_neg hq, if_neg (mt hlt.1 hq)]
        simp only [execute_mirror ho]
        exact congrArg (fun f : Fill => { f with
          executions := (execute s id o.price o.quantity order o).mirror lower upper ::
            f.executions }) ih
    · rw [if_neg hc, if_neg (mt hguard.1 hc)]
      rfl

/-- The mirrored order comes to the same place in the mirrored list. -/
theorem insert_mirror (ho : Limited lower upper o) : ∀ {l : List Order},
    (∀ o ∈ l, Limited lower upper o) →
      insert s.opposite (o.mirror lower upper) (l.map (Order.mirror lower upper)) =
        (insert s o l).map (Order.mirror lower upper)
  | [], _ => rfl
  | a :: l, hl => by
    have ha := hl a List.mem_cons_self
    have ih := insert_mirror ho (l := l) fun x hx => hl x (List.mem_cons_of_mem _ hx)
    have hb : better s.opposite (a.mirror lower upper).price (o.mirror lower upper).price ↔
        better s a.price o.price := by
      rw [ha.price_mirror, ho.price_mirror]
      exact better_reflect ha.2 ho.2
    rw [List.map_cons, insert_cons, insert_cons, ih]
    by_cases hc : better s a.price o.price
    · simp [hc, hb]
    · simp [hc, hb]

theorem size_mirror (R : Book) : (R.mirror lower upper).size = R.size := by
  simp only [Book.size, Book.mirror, OrderType.opposite_buy, OrderType.opposite_sell,
    List.length_map]
  omega

theorem update_mirror (R : Book) (s : OrderType) (l : List Order) :
    Function.update (R.mirror lower upper) s.opposite (l.map (Order.mirror lower upper)) =
      Book.mirror lower upper (Function.update R s l) := by
  ext r : 1
  rcases OrderType.eq_or_eq_opposite s r with rfl | rfl
  · simp [Book.mirror]
  · simp [Book.mirror]

theorem rest_mirror (capacity : ℕ) (t : OrderType) (ho : Limited lower upper o)
    (hR : ∀ r, ∀ o ∈ R r, Limited lower upper o) :
    rest capacity t.opposite (o.mirror lower upper) (R.mirror lower upper) =
      Book.mirror lower upper (rest capacity t o R) := by
  have hsame : R.mirror lower upper t.opposite = (R t).map (Order.mirror lower upper) := by
    rw [Book.mirror, OrderType.opposite_opposite]
  have hcond : (0 < (o.mirror lower upper).quantity ∧ (R.mirror lower upper).size < capacity) ↔
      0 < o.quantity ∧ R.size < capacity := by
    rw [size_mirror]
    rfl
  unfold rest
  by_cases hc : 0 < o.quantity ∧ R.size < capacity
  · rw [if_pos hc, if_pos (hcond.2 hc), hsame, insert_mirror ho (hR t), update_mirror]
  · rw [if_neg hc, if_neg (mt hcond.1 hc)]

/-- What a fill leaves can rest if what it found could. -/
theorem limited_fill {accepts : ℕ → Prop} [DecidablePred accepts] (id : ℕ) (s : OrderType)
    (hR : ∀ r, ∀ o ∈ R r, Limited lower upper o) :
    ∀ r, ∀ o ∈ Function.update R s (fill s accepts id order (R s)).opposite r,
      Limited lower upper o := by
  intro r o ho
  rcases OrderType.eq_or_eq_opposite s r with rfl | rfl
  · rw [Function.update_self] at ho
    obtain ⟨o', ho', hpart⟩ := mem_of_mem_fill _ _ _ ho
    exact (hR _ o' ho').of_partOf hpart
  · rw [Function.update_of_ne (OrderType.opposite_ne _)] at ho
    exact hR _ o ho

theorem limited_process (capacity id : ℕ) (hR : ∀ r, ∀ o ∈ R r, Limited lower upper o) :
    ∀ r, ∀ o ∈ (process capacity lower upper id R order).1 r, Limited lower upper o := by
  intro r o ho
  simp only [process] at ho
  split_ifs at ho with hm hv
  · exact limited_fill id _ hR r o ho
  · rcases mem_rest ho with rfl | ho
    · exact Limited.of_partOf ⟨hm, hv⟩ (fill_order _ _ _)
    · exact limited_fill id _ hR r o ho
  · exact hR r o ho

/-- A mirrored call on a mirrored book. -/
theorem process_mirror (capacity id : ℕ) (ho : Priced lower upper order)
    (hR : ∀ r, ∀ o ∈ R r, Limited lower upper o) :
    process capacity lower upper id (R.mirror lower upper) (order.mirror lower upper) =
      (Book.mirror lower upper (process capacity lower upper id R order).1,
        (process capacity lower upper id R order).2.map (Execution.mirror lower upper)) := by
  have hsame : R.mirror lower upper order.type.opposite.opposite =
      (R order.type.opposite).map (Order.mirror lower upper) := by
    rw [Book.mirror, OrderType.opposite_opposite]
  have htype : (order.mirror lower upper).type = order.type.opposite := rfl
  have hexec : (order.mirror lower upper).executionType = order.executionType := rfl
  simp only [process, htype, hexec, hsame]
  by_cases hm : order.executionType = .market
  · rw [if_pos hm, if_pos hm,
      fill_mirror (fun _ => True) (fun _ => True) (fun _ _ => Iff.rfl) id order _ (hR _)]
    exact Prod.ext (update_mirror R _ _) rfl
  · have hband := ho hm
    have hprice : (order.mirror lower upper).price = reflect lower upper order.price := if_neg hm
    have hband' : lower ≤ reflect lower upper order.price ∧
        reflect lower upper order.price ≤ upper := by
      unfold reflect
      omega
    have hfill := fill_mirror (s := order.type.opposite)
      (fun p => better order.type.opposite p order.price)
      (fun p => better order.type.opposite.opposite p (reflect lower upper order.price))
      (fun p hp => better_reflect hp hband) id order (R order.type.opposite) (hR _)
    have hleft : Limited lower upper (fill order.type.opposite
        (fun p => better order.type.opposite p order.price) id order
          (R order.type.opposite)).order :=
      Limited.of_partOf ⟨hm, hband⟩ (fill_order _ _ _)
    rw [if_neg hm, if_neg hm, hprice, if_neg (not_not.2 hband'), if_neg (not_not.2 hband), hfill]
    refine Prod.ext ?_ rfl
    simp only [Fill.mirror, update_mirror]
    exact rest_mirror capacity order.type hleft (limited_fill id _ hR)

/-- The reference matcher makes of the mirrored orders the mirror image of what it makes of the
orders. -/
theorem run_mirror (capacity : ℕ) (orders : List Order)
    (ho : ∀ o ∈ orders, Priced lower upper o) :
    (∀ r, ∀ o ∈ (State.init.run capacity lower upper orders).book r,
      Limited lower upper o) ∧
      State.init.run capacity lower upper (orders.map (Order.mirror lower upper)) =
        (State.init.run capacity lower upper orders).mirror lower upper := by
  induction orders using List.reverseRecOn with
  | nil => exact ⟨fun _ o ho => absurd ho List.not_mem_nil, rfl⟩
  | append_singleton orders order ih =>
    obtain ⟨hR, hrun⟩ := ih fun o ho' => ho o (List.mem_append_left _ ho')
    have hprocess := process_mirror capacity (State.init.run capacity lower upper orders).tradeId
      (ho order (by simp)) hR
    rw [State.run_append, List.map_append, List.map_singleton, State.run_append, hrun]
    refine ⟨limited_process capacity _ hR, ?_⟩
    simp only [State.step, State.mirror, hprocess, List.length_map, List.map_append]

theorem sum_quantity_mirror (l : List Order) :
    ((l.map (Order.mirror lower upper)).map Order.quantity).sum = (l.map Order.quantity).sum := by
  rw [List.map_map]
  rfl

/-- The mirrored lists hold at the reflected price what the lists hold at the price, if not both
sides rest there. -/
theorem at_mirror {p : ℕ} (hp : lower ≤ p ∧ p ≤ upper)
    (hR : ∀ r, ∀ o ∈ R r, Limited lower upper o)
    (hside : ∃ s, ∀ o ∈ R s, o.price ≠ p) :
    (R.mirror lower upper).at (reflect lower upper p) =
    (R.at p).map (Order.mirror lower upper) := by
  have hfilter : ∀ s, ((R.mirror lower upper s).filter fun o => o.price = reflect lower upper p) =
      ((R s.opposite).filter fun o => o.price = p).map (Order.mirror lower upper) := by
    intro s
    rw [Book.mirror, List.filter_map]
    refine congrArg _ (List.filter_congr fun o ho => ?_)
    obtain ⟨hm, hlow, hup⟩ := hR _ o ho
    have hprice : (o.mirror lower upper).price = reflect lower upper o.price := if_neg hm
    simp only [Function.comp_apply, hprice, reflect, decide_eq_decide]
    omega
  obtain ⟨s, hs⟩ := hside
  have hnil : ((R s).filter fun o => o.price = p) = [] :=
    List.filter_eq_nil_iff.2 fun o ho => by simpa using hs o ho
  simp only [Book.at, List.filter_append, hfilter, List.map_append, OrderType.opposite_buy,
    OrderType.opposite_sell]
  cases s with
  | buy => simp [hnil]
  | sell => simp [hnil]

end Mirror

end PriceTime

open PriceTime

theorem Orderly.mirror {orders : List Order} (h : Orderly orders) (lower upper : ℕ) :
    Orderly (orders.map (Order.mirror lower upper)) where
  ids := by
    rw [List.map_map]
    exact h.ids
  positive := by
    rintro o ho
    obtain ⟨o', ho', rfl⟩ := List.mem_map.1 ho
    exact h.positive o' ho'
  inRange := by
    rintro o ho
    obtain ⟨o', ho', rfl⟩ := List.mem_map.1 ho
    exact h.inRange o' ho'

/-- The mirrored orders make the mirrored trades, and leave at every level the mirrored orders of
the level as far from the other end of the band, with the totals of the two sides swapped. -/
theorem run_mirrored (nodes nodes' : ℕ → OrderNode) {poolSize lower upper : ℕ}
    (hb : Band poolSize lower upper) {orders : List Order} (ho : Orderly orders)
    (hlimit : ∀ o ∈ orders, o.executionType ≠ .market → lower ≤ o.price ∧
      o.price ≤ upper) :
    ∃ st st', (EngineState.init nodes poolSize lower upper).run orders = .ok st ∧
      (EngineState.init nodes' poolSize lower upper).run
        (orders.map (Order.mirror lower upper)) = .ok st' ∧
      (st'.published.map Execution.trade) =
        (st.published.map Execution.trade).map (Trade.mirror lower upper) ∧
      (∀ i ≤ upper - lower, st'.book.queue (upper - lower - i) =
        (st.book.queue i).map (Order.mirror lower upper)) ∧
      ∀ s, st'.book.getTotalQty s.opposite = st.book.getTotalQty s := by
  obtain ⟨st, hrun, hsim, -⟩ := hb.run_spec ho nodes
  obtain ⟨st', hrun', hsim', -⟩ := hb.run_spec (ho.mirror lower upper) nodes'
  obtain ⟨hlimited, hmirror⟩ := run_mirror poolSize orders hlimit
  have hlow : st.book.lowerLimit = lower := hsim.frame.lower
  have hlow' : st'.book.lowerLimit = lower := hsim'.frame.lower
  rw [hmirror] at hsim'
  refine ⟨st, st', hrun, hrun', ?_, fun i hi => ?_, fun s => ?_⟩
  · rw [hsim'.published, hsim.published]
    simp only [State.mirror, List.map_map]
    rfl
  · have hle := hb.lower_le
    have hprice : lower + (upper - lower - i) = reflect lower upper (lower + i) := by
      unfold reflect
      omega
    rw [hsim'.represents.queue, hsim.represents.queue, hlow, hlow', hprice]
    refine at_mirror ⟨Nat.le_add_right _ _, by omega⟩ hlimited ?_
    -- the level is of one side, as the book is not crossed
    rcases em (∀ o ∈ (State.init.run poolSize lower upper orders).book .buy,
      o.price ≠ lower + i) with hnone | hsome
    · exact ⟨.buy, hnone⟩
    · obtain ⟨o, hbuy, hp⟩ : ∃ o ∈ (State.init.run poolSize lower upper orders).book .buy,
          o.price = lower + i := by
        simpa using hsome
      exact ⟨.sell, fun o' ho' => hp ▸ hsim.represents.price_ne (s := .buy) hbuy ho'⟩
  · have htotal := hsim'.represents.total s.opposite
    rw [OrderBook.getTotalQty, OrderBook.getTotalQty, htotal, hsim.represents.total s]
    simp only [State.mirror, Book.mirror, OrderType.opposite_opposite]
    exact sum_quantity_mirror _

/-- A market order takes one order and part of another, and a limit order rests. -/
def marketSweep : List Order :=
  [limitOrder 1 .sell 101 5, limitOrder 2 .sell 102 5,
    { limitOrder 3 .buy 0 7 with executionType := .market }, limitOrder 4 .buy 100 2]

theorem run_mirrored_marketSweep : ∃ st st',
    (EngineState.init zeroNodes 4 100 105).run marketSweep = .ok st ∧
    (EngineState.init zeroNodes 4 100 105).run (marketSweep.map (Order.mirror 100 105)) =
    .ok st' ∧ (st'.published.map Execution.trade) =
      (st.published.map Execution.trade).map (Trade.mirror 100 105) ∧
    st'.book.queue 3 = (st.book.queue 2).map (Order.mirror 100 105) := by
  have hsweep : Orderly marketSweep := ⟨by decide, by decide, by decide⟩
  obtain ⟨st, st', hrun, hrun', htrades, hqueue, -⟩ :=
    run_mirrored zeroNodes zeroNodes band_sweep hsweep (by decide)
  exact ⟨st, st', hrun, hrun', htrades, hqueue 2 (by decide)⟩

end TradeX
