import TradeX.Conservation
import TradeX.Library.Runs

/-!
# Malformed orders

Nothing between a client and the book checks a quantity, and the book checks a price only
against its band. An order with no units comes to rest on a level without adding to the
total of its side, and from then on the tests on totals and the tests on heaps disagree :
`run_malformed` trades nothing, trades a buy against a buy and wraps a total. In a very wide
band a price can also have the level of another price, and the highest 64-bit price is the
sentinel of the sell side.

`RestsSafely` says of a call that it brings no such order to rest. A run whose calls all
satisfy it is sound, call by call (`run_soundCalls`).
-/

namespace TradeX

open PriceTime

/-! ## What a call may rest -/

/-- An order that can come to rest has units, is priced less than `2 ^ 31` above the lower
limit and, if it is a sell, below the largest 64-bit number. An order without units does not
come to rest if it is matched, or if the pool has no node for it. -/
def RestsSafely (b : OrderBook) (order : Order) : Prop :=
  order.executionType ≠ .market → b.isPriceValid order.price →
    b.hasLevel (b.priceToIndex order.price) →
      order.price - b.lowerLimit < 2 ^ 31 ∧
      (order.type = .sell → order.price ≠ 2 ^ 64 - 1) ∧
      (order.quantity = 0 → Crosses b order ∨ b.pool.used = b.pool.capacity)

theorem RestsSafely.admissible {mem : Storage} {poolSize lower upper : ℕ} {b : OrderBook}
    (hf : OrderBook.SameFrame (OrderBook.new mem poolSize lower upper) b) (h0 : 1 ≤ lower)
    (hle : lower ≤ upper) (hlt : upper < 2 ^ 64) {order : Order} (h : RestsSafely b order) :
    Admissible b order := by
  intro hm hv hl
  obtain ⟨hwidth, hsell, hzero⟩ := h hm hv hl
  refine ⟨?_, hzero⟩
  have hlow : b.lowerLimit = lower := hf.lower
  have hup : b.upperLimit = upper := hf.upper
  have hn : b.numPriceLevels = upper - lower + 1 := by
    rw [hf.levels]
    exact numPriceLevels_new mem poolSize hle (by omega)
  have hsent : (b.side order.type).defaultBestPrice =
      OrderBook.defaultBest lower upper order.type := hf.sentinel _
  have hband : b.lowerLimit ≤ order.price ∧ order.price ≤ b.upperLimit := hv
  refine ⟨hv, OrderBook.priceToIndex_eq hband.1 hwidth, by omega, ?_, ?_⟩
  · rw [hsent]
    cases order.type <;> simp only [OrderBook.defaultBest, better] <;> split_ifs <;> omega
  · rw [hsent]
    cases htype : order.type
    · simp only [OrderBook.defaultBest]
      split_ifs <;> omega
    · have := hsell htype
      simp only [OrderBook.defaultBest]
      split_ifs <;> omega

/-! ## Totals -/

theorem sum_trades_fill {s : OrderType} {accepts : ℕ → Prop} [DecidablePred accepts] (id : ℕ)
    (order : Order) (l : List Order) :
    ((fill s accepts id order l).executions.map fun e => e.trade.quantity).sum +
        ((fill s accepts id order l).opposite.map Order.quantity).sum =
      (l.map Order.quantity).sum := by
  simpa [restingTraded, unitsOf] using
    @fill_resting s accepts _ (fun _ => True) _ id order l

/-- A call takes what it trades off the opposite side, and takes nothing off its own. -/
theorem applyOn_totals (b : OrderBook) (id : ℕ) (R : Book) (order : Order) :
    ((applyOn b id R order).2.map fun e => e.trade.quantity).sum +
        (((applyOn b id R order).1 order.type.opposite).map Order.quantity).sum =
      ((R order.type.opposite).map Order.quantity).sum ∧
    ((R order.type).map Order.quantity).sum ≤
      (((applyOn b id R order).1 order.type).map Order.quantity).sum := by
  have hfill : ((fillOf R id order).executions.map fun e => e.trade.quantity).sum +
        ((fillOf R id order).opposite.map Order.quantity).sum =
      ((R order.type.opposite).map Order.quantity).sum := by
    unfold fillOf
    split_ifs
    · exact sum_trades_fill id order _
    · exact sum_trades_fill id order _
  have hother : ∀ l, Function.update R order.type.opposite l order.type = R order.type :=
    fun l => Function.update_of_ne (OrderType.ne_opposite _) l R
  simp only [applyOn]
  by_cases hm : order.executionType = .market
  · simp only [if_pos hm, Function.update_self, hother]
    exact ⟨hfill, le_rfl⟩
  · simp only [if_neg hm]
    by_cases hv : b.isPriceValid order.price
    · have hpart : (fillOf R id order).order.PartOf order := by
        rw [fillOf, if_neg hm]
        exact fill_order _ _ _
      rw [if_neg (not_not.2 hv)]
      simp only [restOn, rest, hpart.type]
      split_ifs
      · rw [Function.update_of_ne (OrderType.opposite_ne _), Function.update_self,
          Function.update_self, hother, sum_insert]
        exact ⟨hfill, Nat.le_add_right _ _⟩
      · rw [Function.update_self, hother]
        exact ⟨hfill, le_rfl⟩
      · rw [Function.update_self, hother]
        exact ⟨hfill, le_rfl⟩
    · rw [if_pos hv]
      simp

/-! ## Sound runs -/

/-- A call that publishes sound executions only, of `submitted` orders, and whose
subtractions from the opposite total do not wrap : they come to no more than the total, and
are what it loses. The total of the order's own side does not fall. -/
def SoundCall (submitted : List Order) (st : EngineState) (order : Order) (st' : EngineState) :
    Prop :=
  ∃ new, st'.published = st.published ++ new ∧ (∀ e ∈ new, e.Sound submitted) ∧
    st'.book.getTotalQty order.type.opposite + (new.map fun e => e.trade.quantity).sum =
      st.book.getTotalQty order.type.opposite ∧
    st.book.getTotalQty order.type ≤ st'.book.getTotalQty order.type

theorem Simulates.soundCall {b₀ : OrderBook} {st st' : EngineState} {a : PriceTime.State}
    {done : List Order} {order : Order} (h : Simulates b₀ st a) (hfrom : RestsFrom done a.book)
    (h' : Simulates b₀ st' (applyStep st.book a order)) :
    SoundCall (done ++ [order]) st order st' := by
  obtain ⟨hopp, hown⟩ := applyOn_totals st.book a.tradeId a.book order
  refine ⟨(applyOn st.book a.tradeId a.book order).2, ?_,
    fun e he => sound_of_mem_applyOn h.represents hfrom he, ?_, ?_⟩
  · rw [h'.published, h.published]
    rfl
  · rw [OrderBook.getTotalQty, OrderBook.getTotalQty, h.represents.total, h'.represents.total,
      ← hopp, Nat.add_comm]
    rfl
  · rw [OrderBook.getTotalQty, OrderBook.getTotalQty, h.represents.total, h'.represents.total]
    exact hown

/-- A call that returns. -/
def EngineState.Calls (st : EngineState) (order : Order) (st' : EngineState) : Prop :=
  st.step order = .ok st'

theorem EngineState.steps_iff_run {orders : List Order} {st st' : EngineState} :
    Runs.Steps EngineState.Calls orders st st' ↔ st.run orders = .ok st' :=
  Runs.steps_iff_ok

/-- Every call of a run from `st` rests safely on the book it finds. -/
def RestsSafelyFrom : EngineState → List Order → Prop :=
  Runs.Always EngineState.Calls fun st order => RestsSafely st.book order

section Run

variable {poolSize lower upper : ℕ} {orders : List Order} (nodes : ℕ → OrderNode)

/-- A run whose calls all rest safely is simulated by the reference matcher. -/
theorem RestsSafelyFrom.run_spec (hp : 1 ≤ poolSize) (hp' : poolSize < 2 ^ 31) (h0 : 1 ≤ lower)
    (hle : lower ≤ upper) (hlt : upper < 2 ^ 64) (hids : (orders.map Order.orderId).Nodup)
    (hr : ∀ o ∈ orders, o.InRange)
    (hsafe : RestsSafelyFrom (EngineState.init nodes poolSize lower upper) orders) :
    ∃ st a, (EngineState.init nodes poolSize lower upper).run orders = .ok st ∧
      Simulates (OrderBook.new ⟨nodes, fun _ => 0⟩ poolSize lower upper) st a ∧
      RestsFrom orders a.book := by
  obtain ⟨st, a, hrun, hsim, hfrom, -⟩ := Simulates.run (P := fun _ _ => True)
    (A := RestsSafelyFrom)
    (fun h hA => ⟨(Runs.Always.head hA).admissible h.frame h0 hle hlt,
      fun _ hst => Runs.Always.tail hA hst⟩)
    (fun _ _ _ => trivial) orders [] (simulates_init nodes lower upper hp hp')
    (fun _ o ho => absurd ho List.not_mem_nil) trivial (by simpa using hids) hr hsafe
  exact ⟨st, a, hrun, hsim, hfrom⟩

/-- A run whose calls all rest safely returns, and every call of it is sound. -/
theorem run_soundCalls (hp : 1 ≤ poolSize) (hp' : poolSize < 2 ^ 31) (h0 : 1 ≤ lower)
    (hle : lower ≤ upper) (hlt : upper < 2 ^ 64) (hids : (orders.map Order.orderId).Nodup)
    (hr : ∀ o ∈ orders, o.InRange)
    (hsafe : RestsSafelyFrom (EngineState.init nodes poolSize lower upper) orders) :
    (∃ st, (EngineState.init nodes poolSize lower upper).run orders = .ok st) ∧
      ∀ pre order post, orders = pre ++ order :: post →
        ∃ st st', (EngineState.init nodes poolSize lower upper).run pre = .ok st ∧
          st.step order = .ok st' ∧ SoundCall (pre ++ [order]) st order st' := by
  refine ⟨?_, ?_⟩
  · obtain ⟨st, -, hrun, -⟩ := hsafe.run_spec nodes hp hp' h0 hle hlt hids hr
    exact ⟨st, hrun⟩
  · rintro pre order post rfl
    have hpre := hids.sublist ((List.sublist_append_left pre (order :: post)).map Order.orderId)
    have hsafe' : RestsSafelyFrom (EngineState.init nodes poolSize lower upper) pre :=
      Runs.Always.left hsafe
    obtain ⟨st, a, hrun, hsim, hfrom⟩ := hsafe'.run_spec nodes hp hp' h0 hle hlt hpre
      fun o ho => hr o (List.mem_append_left _ ho)
    have hadm := (hsafe pre order post st rfl (EngineState.steps_iff_run.2 hrun)).admissible
      hsim.frame h0 hle hlt
    obtain ⟨st', hst', hsim'⟩ := hsim.step (hr order (by simp)) hadm
      (hfrom.fresh_of_nodup hids)
    exact ⟨st, st', hrun, hst', hsim.soundCall hfrom hsim'⟩

end Run

/-- A sell, and a buy with no units at its price. -/
def emptyTaker : List Order :=
  [limitOrder 1 .sell 100 5, limitOrder 2 .buy 100 0]

theorem emptyTaker_crosses :
    ∃ st, (EngineState.init zeroNodes 4 100 105).run [limitOrder 1 .sell 100 5] = .ok st ∧
      st.book.lowerLimit = 100 ∧ Crosses st.book (limitOrder 2 .buy 100 0) := by
  have hview : ((EngineState.init zeroNodes 4 100 105).run [limitOrder 1 .sell 100 5]).map
      (fun st => (st.book.lowerLimit, st.book.getTotalQty .sell,
        (st.book.bestprice .sell).map Prod.fst)) = .ok (100, 5, .ok 100) := by decide +kernel
  obtain ⟨st, hrun, hst⟩ := map_eq_ok.1 hview
  obtain ⟨hlow, htotal, hbest⟩ := by simpa using hst
  obtain ⟨⟨best, b'⟩, hb, rfl⟩ := map_eq_ok.1 hbest
  refine ⟨st, hrun, hlow, ?_, 100, b', hb, le_rfl⟩
  exact ne_of_eq_of_ne htotal (by decide)

theorem emptyTaker_restsSafely :
    RestsSafelyFrom (EngineState.init zeroNodes 4 100 105) emptyTaker := by
  refine .cons (fun _ _ _ => ⟨by decide, fun _ => by decide, fun h0 => absurd h0 (by decide)⟩)
    fun st hst => .cons ?_ fun _ _ => .nil _
  obtain ⟨st', hrun, hlow, hcross⟩ := emptyTaker_crosses
  obtain rfl : st' = st :=
    Except.ok.inj (hrun.symm.trans (EngineState.steps_iff_run.1 ⟨st, hst, rfl⟩))
  exact fun _ _ _ => ⟨by rw [hlow]; decide, fun h => absurd h (by
    decide), fun _ => Or.inl hcross⟩

theorem run_emptyTaker_soundCalls :
    RestsSafelyFrom (EngineState.init zeroNodes 4 100 105) emptyTaker ∧
    ∃ st, (EngineState.init zeroNodes 4 100 105).run emptyTaker = .ok st := by
  have h := run_soundCalls zeroNodes (by decide) (by decide) (by decide) (by decide) (by decide)
    (by decide) (by decide) emptyTaker_restsSafely
  exact ⟨emptyTaker_restsSafely, h.1⟩

/-! ## An unsound run -/

/-- A sell with no units comes to rest, and a buy, a sell and a buy follow at its price. -/
def malformed : List Order :=
  [limitOrder 1 .sell 100 0, limitOrder 2 .buy 100 5, limitOrder 3 .sell 100 3,
    limitOrder 4 .buy 100 10]

/-- The first trade of the last order is of no units, the second is with the other buy, and
the total of the sell side wraps. -/
theorem run_malformed :
    (malformed.map Order.orderId).Nodup ∧ (∀ o ∈ malformed, o.InRange) ∧
    ∃ st, (EngineState.init zeroNodes 4 100 105).run malformed = .ok st ∧
      (∃ e ∈ st.published, e.trade.quantity = 0) ∧
      (∃ e ∈ st.published, ∃ o ∈ malformed, ∃ o' ∈ malformed,
        o.orderId = e.buyer.orderId ∧ o'.orderId = e.seller.orderId ∧
        o.type = .buy ∧ o'.type = .buy) ∧
      st.book.getTotalQty .sell = 2 ^ 64 - 5 := by
  have hview : ((EngineState.init zeroNodes 4 100 105).run malformed).map (fun st =>
      (st.published.map fun e => (e.trade.quantity, e.buyer.orderId, e.seller.orderId),
        st.book.getTotalQty .sell)) =
      .ok ([(0, 4, 1), (5, 4, 2), (3, 4, 3)], 2 ^ 64 - 5) := by decide +kernel
  obtain ⟨st, hrun, hst⟩ := map_eq_ok.1 hview
  obtain ⟨htrades, htotal⟩ := Prod.mk.inj hst
  have hmem : ∀ v ∈ [(0, 4, 1), (5, 4, 2), (3, 4, 3)], ∃ e ∈ st.published,
      (e.trade.quantity, e.buyer.orderId, e.seller.orderId) = v := by
    rw [← htrades]
    exact fun v hv => List.mem_map.1 hv
  obtain ⟨e₁, he₁, hv₁⟩ := hmem (0, 4, 1) (by decide)
  obtain ⟨e₂, he₂, hv₂⟩ := hmem (5, 4, 2) (by decide)
  obtain ⟨-, hbuyer, hseller⟩ := by simpa using hv₂
  exact ⟨by decide, by decide, st, hrun, ⟨e₁, he₁, congrArg Prod.fst hv₁⟩,
    ⟨e₂, he₂, limitOrder 4 .buy 100 10, by simp [malformed], limitOrder 2 .buy 100 5,
      by simp [malformed], hbuyer.symm, hseller.symm, rfl, rfl⟩, htotal⟩

end TradeX
