import TradeX.EngineRuns

/-!
# Market orders are limit orders at the end of the band

`process_market_buy` goes on while the best price is valid, and `process_buy` while it is at most
the limit. On a book that represents two priority lists the two guards agree on every price a loop
comes to if the limit is `upper_limit`, and dually for sells at `lower_limit`
(`matchLoop_guard`), and the loops do not look at the price of the incoming order otherwise
(`matchLoop_reprice`).

`market_eq_limit` : the two paths publish the same trades, and the books they leave differ by the
rest of the limit order alone.
-/

namespace TradeX

open PriceTime

/-! ## The price of the incoming order -/

/-- The execution of an incoming order with another price. -/
def Execution.reprice (p : ℕ) (e : Execution) : Execution :=
  { e with incoming := { e.incoming with price := p } }

/-- What a call has done, with `p` as the price of its order. -/
def MatchResult.reprice (p : ℕ) (r : MatchResult) : MatchResult where
  book := r.book
  executions := r.executions.map (Execution.reprice p)
  remainder := r.remainder.map fun o => { o with price := p }

/-- The loop does not look at the price of the incoming order. -/
theorem matchLoop_reprice (s : OrderType) (guard : ℕ → Bool) (p : ℕ) :
    ∀ (fuel id best : ℕ) (b : OrderBook) (order : Order),
      matchLoop s guard fuel id best b { order with price := p } =
        (matchLoop s guard fuel id best b order).map (MatchResult.reprice p)
  | 0, _, _, _, _ => rfl
  | fuel + 1, id, best, b, order => by
    rw [matchLoop, matchLoop]
    by_cases hc : 0 < order.quantity ∧ 0 < b.getTotalQty s ∧ guard best = true
    · rw [if_pos hc, if_pos hc]
      rcases b.headAt best with _ | head
      · rfl
      · simp only [ok_bind]
        by_cases hlt : order.quantity < head.quantity
        · rw [if_pos hlt, if_pos hlt]
          rcases b.modifyQuantity best (head.quantity - order.quantity) with _ | _
          · rfl
          · rfl
        · rw [if_neg hlt, if_neg hlt]
          rcases b.removeOrder s best with _ | ⟨_, b₁⟩
          · rfl
          · simp only [ok_bind]
            rcases b₁.bestprice s with _ | ⟨best', b₂⟩
            · rfl
            · have ih := matchLoop_reprice s guard p fuel (nextTradeId id) best' b₂
                { order with quantity := order.quantity - head.quantity }
              simp only [ok_bind, ih]
              rcases matchLoop s guard fuel (nextTradeId id) best' b₂
                { order with quantity := order.quantity - head.quantity } with _ | _
              · rfl
              · rfl
    · rw [if_neg hc, if_neg hc]
      rfl

/-! ## The guards -/

/-- The loop asks its guard about prices of resting orders only. -/
theorem matchLoop_guard {s : OrderType} {guard guard' : ℕ → Bool} :
    ∀ (l : List Order) {b : OrderBook} {R : Book} (_ : Represents b R) (_ : R s = l)
      (_ : ∀ o ∈ l, guard o.price = guard' o.price) (fuel id : ℕ) (order : Order),
      matchLoop s guard fuel id (bestOf b s l) b order =
        matchLoop s guard' fuel id (bestOf b s l) b order
  | _, _, _, _, _, _, 0, _, _ => rfl
  | [], b, R, h, hR, _, fuel + 1, id, order => by
    have ht := (h.total_eq_zero_iff s).2 hR
    simp [matchLoop, ht]
  | o :: l, b, R, h, hR, hg, fuel + 1, id, order => by
    have hhead := h.headAt_first hR
    obtain ⟨b₁, b₂, hrm, hbest, hframe, hrep⟩ := h.fillHead_spec hR
    have hbo := bestOf_of_frame hframe s l
    have ih := matchLoop_guard l hrep (Function.update_self s l R)
      (fun o' ho' => hg o' (List.mem_cons_of_mem _ ho')) fuel (nextTradeId id)
      { order with quantity := order.quantity - o.quantity }
    rw [hbo] at ih
    have hfirst : bestOf b s (o :: l) = o.price := rfl
    rw [hfirst, matchLoop, matchLoop]
    simp only [hg o List.mem_cons_self, hhead, ok_bind, hrm, hbest, ih]

/-- The price of a limit order that accepts every price of the band. -/
def farLimit (lower upper : ℕ) : OrderType → ℕ
  | .buy => upper
  | .sell => lower

theorem better_farLimit {lower upper p : ℕ} (t : OrderType) (hp : lower ≤ p ∧ p ≤ upper) :
    better t.opposite p (farLimit lower upper t) := by
  cases t with
  | buy => exact hp.2
  | sell => exact hp.1

/-! ## The two paths -/

/-- `addBuyOrder` and `addSellOrder` always return. -/
theorem OrderBook.WF.addOrder_returns {b : OrderBook} (h : b.WF) (s : OrderType) (o : Order) :
    ∃ accepted b', b.addOrder s o = .ok (accepted, b') := by
  rcases em (b.hasLevel (b.priceToIndex o.price)) with hlevel | hlevel
  · obtain ⟨i, hp⟩ := Int.eq_ofNat_of_zero_le hlevel.1
    obtain ⟨level, free, h⟩ := h
    rw [addOrder, if_neg (not_not.2 hlevel)]
    cases free with
    | nil =>
      simp only [hp, Int.toNat_natCast, h.toArena.insertOrder_full i o, ok_bind, if_true]
      exact ⟨_, _, rfl⟩
    | cons k free =>
      obtain ⟨q, pool, hins, -⟩ := h.toArena.insertOrder_spec i o
      have hkn : k ≠ nullIdx := h.toArena.ne_null ((h.cell k).2 (Or.inl List.mem_cons_self))
      simp only [hp, Int.toNat_natCast, hins, ok_bind, if_neg hkn]
      exact ⟨_, _, rfl⟩
  · exact ⟨false, b, OrderBook.addOrder_no_level hlevel⟩

/-- The units of an order that some executions leave. -/
def unfilled (order : Order) (executions : List Execution) : ℕ :=
  order.quantity - (executions.map fun e => e.trade.quantity).sum

/-- The book `b'` is `b` with the rest of an order added to it, if there is any. -/
def Rested (t : OrderType) (order : Order) (rest : ℕ) (b b' : OrderBook) : Prop :=
  if rest = 0 then b' = b
  else ∃ accepted, b.addOrder t { order with quantity := rest } = .ok (accepted, b')

theorem PriceTime.fill_unfilled {s : OrderType} {accepts : ℕ → Prop} [DecidablePred accepts]
    (id : ℕ) (order : Order) (l : List Order) :
    (fill s accepts id order l).order.quantity =
    unfilled order (fill s accepts id order l).executions := by
  have h := @fill_incoming s accepts _ (fun _ => True) _ id order l
  simp only [incomingTraded, unitsOf, if_true, List.map_cons, List.map_nil, List.sum_cons,
    List.sum_nil] at h
  unfold unfilled
  omega

namespace Represents

variable {b : OrderBook} {R : Book}

/-- The loops of the two paths. -/
theorem matchLoop_farLimit (h : Represents b R) (t : OrderType) (fuel id : ℕ) (order : Order) :
    matchLoop t.opposite
        (fun p => decide (better t.opposite p (farLimit b.lowerLimit b.upperLimit t))) fuel id
        (bestOf b t.opposite (R t.opposite)) b
        { order with price := farLimit b.lowerLimit b.upperLimit t } =
      (matchLoop t.opposite (fun p => decide (b.isPriceValid p)) fuel id
        (bestOf b t.opposite (R t.opposite)) b order).map
          (MatchResult.reprice (farLimit b.lowerLimit b.upperLimit t)) := by
  rw [matchLoop_reprice]
  refine congrArg _ (matchLoop_guard _ h rfl (fun o ho => ?_) fuel id order)
  have hv := (h.resting _ o ho).2.2.2.valid
  simp only [hv, better_farLimit t hv]

/-- With nothing to trade against, the market order is gone and the limit order rests. -/
theorem processMarket_of_empty (h : Represents b R) (t : OrderType) (id : ℕ) {order : Order}
    (hpos : 0 < order.quantity) (ht : b.getTotalQty t.opposite = 0) :
    ∃ book book' executions, processMarket t id b order = .ok (book, executions) ∧
      processLimit t id b { order with price := farLimit b.lowerLimit b.upperLimit t } =
        .ok (book', executions.map (Execution.reprice (farLimit b.lowerLimit b.upperLimit t))) ∧
      Rested t { order with price := farLimit b.lowerLimit b.upperLimit t }
        (unfilled order executions) book book' := by
  obtain ⟨accepted, b', hadd⟩ := h.wf.addOrder_returns t
    { order with price := farLimit b.lowerLimit b.upperLimit t }
  refine ⟨b, b', [], ?_, ?_, ?_⟩
  · rw [processMarket, if_pos ht]
  · rw [processLimit, if_pos ht, hadd]
    rfl
  · have hleft : unfilled order [] = order.quantity := rfl
    rw [Rested, hleft, if_neg hpos.ne']
    exact ⟨accepted, hadd⟩

/-- Otherwise both loops run, and what is left rests or is discarded. -/
theorem processMarket_of_nonempty (h : Represents b R) (t : OrderType) (id : ℕ) (order : Order)
    (ht : b.getTotalQty t.opposite ≠ 0) :
    ∃ book book' executions, processMarket t id b order = .ok (book, executions) ∧
      processLimit t id b { order with price := farLimit b.lowerLimit b.upperLimit t } =
        .ok (book', executions.map (Execution.reprice (farLimit b.lowerLimit b.upperLimit t))) ∧
      Rested t { order with price := farLimit b.lowerLimit b.upperLimit t }
        (unfilled order executions) book book' := by
  set far := farLimit b.lowerLimit b.upperLimit t with hfar
  have hbest : better t.opposite (bestOf b t.opposite (R t.opposite)) far := by
    obtain ⟨o, l, hR⟩ := List.exists_cons_of_ne_nil (mt (h.total_eq_zero_iff _).2 ht)
    rw [hR]
    exact better_farLimit t (h.resting _ o (hR ▸ List.mem_cons_self)).2.2.2.valid
  obtain ⟨book, rem, hrun, -, hrep, hrem⟩ := matchLoop_spec (fun p => decide (b.isPriceValid p))
    (fun _ => True) (R t.opposite) h rfl (fun o ho => by simpa using (h.resting _ o ho).2.2.2.valid)
    (h.length_lt_fuel t.opposite order) id order
  have hloop := h.matchLoop_farLimit t (matchFuel b order) id order
  rw [hrun, ← hfar] at hloop
  have hleft := @fill_unfilled t.opposite (fun _ => True) _ id order (R t.opposite)
  have hpart := @fill_order t.opposite (fun _ => True) _ id order (R t.opposite)
  set f := fill t.opposite (fun _ => True) id order (R t.opposite) with hf
  have hmarket : processMarket t id b order = .ok (book, f.executions) := by
    rw [processMarket, if_neg ht, h.bestprice_eq, ok_bind]
    simp only [hrun, ok_bind]
  have hlimit := h.processLimit_of_loop ht hbest hloop
  -- the loop has returned on a partial fill, or has left an order
  rcases hrem with rfl | ⟨rfl, hzero⟩
  · rcases Nat.eq_zero_or_pos f.order.quantity with hzero | hsome
    · refine ⟨book, book, f.executions, hmarket, hlimit.trans (if_neg hzero.not_gt), ?_⟩
      rw [Rested, ← hleft, if_pos hzero]
    · obtain ⟨accepted, book', hadd⟩ :=
        hrep.wf.addOrder_returns t { f.order with price := far }
      refine ⟨book, book', f.executions, hmarket, hlimit.trans ((if_pos hsome).trans ?_), ?_⟩
      · exact bind_eq_ok.2 ⟨_, hadd, rfl⟩
      · rw [Rested, ← hleft, if_neg hsome.ne']
        refine ⟨accepted, ?_⟩
        rw [← hadd]
        conv_rhs => rw [hpart.eq]
  · refine ⟨book, book, f.executions, hmarket, hlimit, ?_⟩
    rw [Rested, ← hleft, if_pos hzero]

end Represents

/-- In every state a run of orders comes to, the market path publishes the trades of the limit path
for the order priced at the far end of the band, stores the same last prices, and leaves the book
that the limit path leaves before it rests what is left of the order. -/
theorem market_eq_limit (nodes : ℕ → OrderNode) {poolSize lower upper : ℕ} {done : List Order}
    (hb : Band poolSize lower upper) (hdone : Orderly done) (t : OrderType) {order : Order}
    (hpos : 0 < order.quantity) :
    ∃ st, (EngineState.init nodes poolSize lower upper).run done = .ok st ∧
      ∃ book book' executions executions',
        processMarket t st.tradeId st.book order = .ok (book, executions) ∧
        processLimit t st.tradeId st.book { order with price := farLimit lower upper t } =
          .ok (book', executions') ∧
        executions'.map Execution.trade = executions.map Execution.trade ∧
        (∀ lastPrice, storeTrades lastPrice (executions'.map Execution.trade) =
          storeTrades lastPrice (executions.map Execution.trade)) ∧
        Rested t { order with price := farLimit lower upper t } (unfilled order executions) book
          book' := by
  obtain ⟨st, hrun, hsim, -⟩ := hb.run_spec hdone nodes
  have hlow : st.book.lowerLimit = lower := hsim.frame.lower
  have hup : st.book.upperLimit = upper := hsim.frame.upper
  have hpaths : ∃ book book' executions,
      processMarket t st.tradeId st.book order = .ok (book, executions) ∧
      processLimit t st.tradeId st.book { order with price := farLimit lower upper t } =
        .ok (book', executions.map (Execution.reprice (farLimit lower upper t))) ∧
      Rested t { order with price := farLimit lower upper t } (unfilled order executions) book
        book' := by
    rw [← hlow, ← hup]
    rcases eq_or_ne (st.book.getTotalQty t.opposite) 0 with ht | ht
    · exact hsim.represents.processMarket_of_empty t st.tradeId hpos ht
    · exact hsim.represents.processMarket_of_nonempty t st.tradeId order ht
  obtain ⟨book, book', executions, hmarket, hlimit, hrest⟩ := hpaths
  have htrades : (executions.map (Execution.reprice (farLimit lower upper t))).map Execution.trade =
      executions.map Execution.trade := by
    rw [List.map_map]
    rfl
  exact ⟨st, hrun, book, book', executions, _, hmarket, hlimit, htrades,
    fun lastPrice => by rw [htrades], hrest⟩

/-- A market order of nine units. -/
def nineAtMarket : Order :=
  { limitOrder 4 .buy 0 9 with executionType := .market }

theorem market_eq_limit_sweep :
    ∃ st, (EngineState.init zeroNodes 4 100 105).run sweep = .ok st ∧
      ∃ book book' executions executions',
      processMarketBuy st.tradeId st.book nineAtMarket = .ok (book, executions) ∧
      processBuy st.tradeId st.book { nineAtMarket with price := 105 } =
        .ok (book', executions') ∧
      executions'.map Execution.trade = executions.map Execution.trade ∧
      Rested .buy { nineAtMarket with price := 105 } (unfilled nineAtMarket executions) book
        book' := by
  obtain ⟨st, hrun, book, book', executions, executions', hmarket, hlimit, htrades, -, hrest⟩ :=
    market_eq_limit zeroNodes band_sweep orderly_sweep .buy (show 0 < nineAtMarket.quantity by
      decide)
  exact ⟨st, hrun, book, book', executions, executions', hmarket, hlimit, htrades, hrest⟩

end TradeX
