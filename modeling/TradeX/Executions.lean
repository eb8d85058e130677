import TradeX.Refinement

/-!
# Executions

Every execution pairs what is left of two submitted orders, a buy and a sell, for a positive
quantity and at the price of the one that was resting (`Execution.Sound`). A fill moves
units and makes none (`fill_incoming`, `fill_resting`), and neither does a call of the
reference matcher (`process_units`).
-/

namespace TradeX

open PriceTime

/-! ## Executions -/

/-- A trade of units that both orders have, between a submitted buy and a submitted sell,
at the limit of the one that was resting and within the limit of the other. -/
structure Execution.Sound (submitted : List Order) (e : Execution) : Prop where
  positive : 0 < e.trade.quantity
  buyer : ∃ o ∈ submitted, e.buyer.PartOf o ∧ e.trade.buyOrderId = o.clientOrderId ∧
    o.type = .buy ∧ (o.executionType ≠ .market → e.trade.price ≤ o.price)
  seller : ∃ o ∈ submitted, e.seller.PartOf o ∧ e.trade.sellOrderId = o.clientOrderId ∧
    o.type = .sell ∧ (o.executionType ≠ .market → o.price ≤ e.trade.price)
  resting : ∃ o ∈ submitted, e.resting.PartOf o ∧ e.trade.price = o.price

theorem Execution.Sound.mono {l l' : List Order} (hsub : ∀ o ∈ l, o ∈ l') {e : Execution}
    (h : e.Sound l) : e.Sound l' := by
  obtain ⟨o₁, h₁, hb⟩ := h.buyer
  obtain ⟨o₂, h₂, hs⟩ := h.seller
  obtain ⟨o₃, h₃, hr⟩ := h.resting
  exact ⟨h.positive, ⟨o₁, hsub _ h₁, hb⟩, ⟨o₂, hsub _ h₂, hs⟩,
    ⟨o₃, hsub _ h₃, hr⟩⟩

namespace PriceTime

variable {s : OrderType} {accepts : ℕ → Prop} [DecidablePred accepts]

/-- The executions of a fill are made of the orders of the list and of what is left of the
incoming order. -/
theorem mem_executions_fill : ∀ (id : ℕ) (order : Order) (l : List Order),
    (∀ o ∈ l, 0 < o.quantity) →
    ∀ {e : Execution}, e ∈ (fill s accepts id order l).executions →
      ∃ o ∈ l, ∃ o' id' qty, o'.PartOf order ∧ 0 < qty ∧ accepts o.price ∧
        e = execute s id' o.price qty o' o
  | _, _, [], _, e, he => by simp [fill] at he
  | id, order, a :: l, hpos, e, he => by
    rw [fill] at he
    split_ifs at he with hc hlt
    · refine ⟨a, List.mem_cons_self, order, id, order.quantity, .refl order, hc.1, hc.2, ?_⟩
      simpa using he
    · rcases List.mem_cons.1 he with rfl | he
      · exact ⟨a, List.mem_cons_self, order, id, a.quantity, .refl order,
          hpos a List.mem_cons_self, hc.2, rfl⟩
      · obtain ⟨o, ho, o', id', qty, hpart, h⟩ := mem_executions_fill _ _ l
          (fun o ho => hpos o (List.mem_cons_of_mem _ ho)) he
        exact ⟨o, List.mem_cons_of_mem _ ho, o', id', qty,
          hpart.trans (.of_le (Nat.sub_le _ _)), h⟩
    · simp at he

/-- The executions of a fill are sound if the resting orders are what is left of submitted
orders of the opposite side. -/
theorem sound_of_mem_fill {submitted l : List Order} {id : ℕ} {order : Order}
    (hl : ∀ o ∈ l, 0 < o.quantity ∧ o.type = s ∧ ∃ o' ∈ submitted, o.PartOf o')
    (ho : order ∈ submitted) (htype : order.type = s.opposite)
    (hacc : ∀ p, accepts p → order.executionType ≠ .market → better s p order.price)
    {e : Execution} (he : e ∈ (fill s accepts id order l).executions) : e.Sound submitted := by
  obtain ⟨o, ho', o₁, id', qty, hpart, hqty, hp, rfl⟩ :=
    mem_executions_fill id order l (fun o ho => (hl o ho).1) he
  obtain ⟨-, hs, o₂, ho₂, hpart₂⟩ := hl o ho'
  have hlimit : ∀ h : order.executionType ≠ .market, better s o.price order.price := hacc _ hp
  cases s with
  | buy =>
    exact ⟨hqty, ⟨o₂, ho₂, hpart₂, hpart₂.clientOrderId, hpart₂.type ▸ hs,
      fun _ => hpart₂.price.le⟩, ⟨order, ho, hpart, hpart.clientOrderId, htype, hlimit⟩,
        ⟨o₂, ho₂, hpart₂, hpart₂.price⟩⟩
  | sell =>
    exact ⟨hqty, ⟨order, ho, hpart, hpart.clientOrderId, htype, hlimit⟩,
      ⟨o₂, ho₂, hpart₂, hpart₂.clientOrderId, hpart₂.type ▸ hs,
      fun _ => hpart₂.price.ge⟩, ⟨o₂, ho₂, hpart₂, hpart₂.price⟩⟩

end PriceTime

/-- The executions of a `process_order` call are sound. -/
theorem sound_of_mem_applyOn {b : OrderBook} {R : Book} (h : Represents b R) {done : List Order}
    (hfrom : RestsFrom done R) {id : ℕ} {order : Order} {e : Execution}
    (he : e ∈ (applyOn b id R order).2) : e.Sound (done ++ [order]) := by
  have hl : ∀ o ∈ R order.type.opposite, 0 < o.quantity ∧ o.type = order.type.opposite ∧
      ∃ o' ∈ done ++ [order], o.PartOf o' := by
    intro o ho
    obtain ⟨htype, hpos, -, -⟩ := h.resting _ o ho
    obtain ⟨o', ho', hpart⟩ := hfrom _ o ho
    exact ⟨hpos, htype, o', List.mem_append_left _ ho', hpart⟩
  have hfill : ∀ {e : Execution}, e ∈ (fillOf R id order).executions →
      e.Sound (done ++ [order]) := by
    intro e he
    unfold fillOf at he
    split_ifs at he with hm
    · exact sound_of_mem_fill hl (by simp) (by simp) (fun _ _ hn => absurd hm hn) he
    · exact sound_of_mem_fill hl (by simp) (by simp) (fun _ hp _ => hp) he
  simp only [applyOn] at he
  split_ifs at he
  · exact hfill he
  · exact hfill he
  · exact absurd he List.not_mem_nil

theorem sound_of_mem_applyStep {b : OrderBook} {a : PriceTime.State} (h : Represents b a.book)
    {done : List Order} (hfrom : RestsFrom done a.book)
    (hsound : ∀ e ∈ a.published, e.Sound done)
    {order : Order} : ∀ e ∈ (applyStep b a order).published, e.Sound (done ++ [order]) := by
  intro e he
  rcases List.mem_append.1 he with he | he
  · exact (hsound e he).mono fun o ho => List.mem_append_left _ ho
  · exact sound_of_mem_applyOn h hfrom he

/-! ## Units -/

/-- The units of the orders with an id in `P`. -/
def unitsOf (P : ℕ → Prop) [DecidablePred P] (l : List Order) : ℕ :=
  (l.map fun o => if P o.orderId then o.quantity else 0).sum

/-- The units traded by resting orders with an id in `P`. -/
def restingTraded (P : ℕ → Prop) [DecidablePred P] (l : List Execution) : ℕ :=
  (l.map fun e => if P e.resting.orderId then e.trade.quantity else 0).sum

/-- The units traded by incoming orders with an id in `P`. -/
def incomingTraded (P : ℕ → Prop) [DecidablePred P] (l : List Execution) : ℕ :=
  (l.map fun e => if P e.incoming.orderId then e.trade.quantity else 0).sum

/-- The units of order `id` that a list of executions traded. -/
def traded (id : ℕ) (l : List Execution) : ℕ :=
  incomingTraded (· = id) l + restingTraded (· = id) l

namespace PriceTime

variable {s : OrderType} {accepts : ℕ → Prop} [DecidablePred accepts] {P : ℕ → Prop}
  [DecidablePred P]

/-- What the incoming order trades it no longer has. -/
theorem fill_incoming : ∀ (id : ℕ) (order : Order) (l : List Order),
    incomingTraded P (fill s accepts id order l).executions +
      unitsOf P [(fill s accepts id order l).order] = unitsOf P [order]
  | _, _, [] => by simp [fill, incomingTraded]
  | id, order, o :: l => by
    rw [fill]
    split_ifs with hc hlt
    · simp [incomingTraded, unitsOf, execute]
    · have ih := fill_incoming (nextTradeId id)
        { order with quantity := order.quantity - o.quantity } l
      simp only [incomingTraded, unitsOf, execute, List.map_cons, List.map_nil, List.sum_cons,
        List.sum_nil] at ih ⊢
      split_ifs at ih ⊢ <;> omega
    · simp [incomingTraded]

/-- What the resting orders trade they no longer have. -/
theorem fill_resting : ∀ (id : ℕ) (order : Order) (l : List Order),
    restingTraded P (fill s accepts id order l).executions +
      unitsOf P (fill s accepts id order l).opposite = unitsOf P l
  | _, _, [] => by simp [fill, restingTraded, unitsOf]
  | id, order, o :: l => by
    rw [fill]
    split_ifs with hc hlt
    · simp only [restingTraded, unitsOf, execute, List.map_cons, List.map_nil, List.sum_cons,
        List.sum_nil]
      split_ifs <;> omega
    · have ih := fill_resting (nextTradeId id)
        { order with quantity := order.quantity - o.quantity } l
      simp only [restingTraded, unitsOf, execute, List.map_cons, List.sum_cons] at ih ⊢
      split_ifs <;> omega
    · simp [restingTraded]

theorem unitsOf_insert (s : OrderType) (o : Order) (l : List Order) :
    unitsOf P (insert s o l) = unitsOf P [o] + unitsOf P l := by
  have hperm := (List.perm_orderedInsert (fun o o' => ¬better s o'.price o.price) o l).map
    fun o => if P o.orderId then o.quantity else 0
  rw [unitsOf, insert, hperm.sum_nat]
  simp [unitsOf]

/-- The units of order `id` that rest. -/
def Book.units (id : ℕ) (R : Book) : ℕ :=
  unitsOf (· = id) (R .buy) + unitsOf (· = id) (R .sell)

theorem Book.units_update (id : ℕ) (R : Book) (s : OrderType) (l : List Order) :
    Book.units id (Function.update R s l) + unitsOf (· = id) (R s) =
      R.units id + unitsOf (· = id) l := by
  cases s <;> simp [Book.units] <;> omega

/-- What is traded or rests after a fill is what rested before and what the incoming order
brought, less what is left of it. -/
theorem fill_units (i id : ℕ) (R : Book) (order : Order) :
    traded i (fill s accepts id order (R s)).executions +
        Book.units i (Function.update R s (fill s accepts id order (R s)).opposite) +
        unitsOf (· = i) [(fill s accepts id order (R s)).order] =
      R.units i + unitsOf (· = i) [order] := by
  have hin := @fill_incoming s accepts _ (· = i) _ id order (R s)
  have hrest := @fill_resting s accepts _ (· = i) _ id order (R s)
  have hup := Book.units_update i R s (fill s accepts id order (R s)).opposite
  rw [traded]
  omega

theorem unitsOf_singleton_ne_zero {i : ℕ} {o : Order} (h : unitsOf (· = i) [o] ≠ 0) :
    o.orderId = i ∧ 0 < o.quantity := by
  by_cases hi : o.orderId = i
  · simp only [unitsOf, List.map_cons, List.map_nil, List.sum_cons, List.sum_nil, if_pos hi] at h
    exact ⟨hi, by omega⟩
  · simp [unitsOf, hi] at h

/-- Resting an order loses its units only if there is no room. -/
theorem rest_units (capacity i : ℕ) (t : OrderType) (o : Order) (R : Book) :
    (rest capacity t o R).units i = R.units i + unitsOf (· = i) [o] ∨
      rest capacity t o R = R ∧ (unitsOf (· = i) [o] ≠ 0 → capacity ≤ R.size) := by
  unfold rest
  split_ifs with hc
  · left
    have hup := Book.units_update i R t (insert t o (R t))
    rw [unitsOf_insert] at hup
    omega
  · refine Or.inr ⟨rfl, fun hne => ?_⟩
    by_contra hlt
    exact hc ⟨(unitsOf_singleton_ne_zero hne).2, by omega⟩

/-- One incoming order : units are traded, rest or are discarded. Only the incoming order
loses units, and only if it is a market order, its price is outside the band, or no more
orders can rest. -/
theorem process_units (capacity lower upper i id : ℕ) (R : Book) (order : Order) :
    ∃ d, traded i (process capacity lower upper id R order).2 +
          (process capacity lower upper id R order).1.units i + d =
        R.units i + unitsOf (· = i) [order] ∧
      (d ≠ 0 → order.orderId = i ∧ (order.executionType = .market ∨
        ¬(lower ≤ order.price ∧ order.price ≤ upper) ∨
        capacity ≤ (process capacity lower upper id R order).1.size)) := by
  simp only [process]
  by_cases hm : order.executionType = .market
  · simp only [if_pos hm]
    have hpart := @fill_order order.type.opposite (fun _ => True) _ id order
      (R order.type.opposite)
    exact ⟨_, fill_units i id R order, fun hd =>
      ⟨hpart.orderId.symm.trans (unitsOf_singleton_ne_zero hd).1, Or.inl hm⟩⟩
  · simp only [if_neg hm]
    by_cases hv : lower ≤ order.price ∧ order.price ≤ upper
    · simp only [if_neg (not_not.2 hv)]
      set s := order.type.opposite
      have hfill := @fill_units s (fun p => better s p order.price) _ i id R order
      set f := fill s (fun p => better s p order.price) id order (R s) with hf
      rcases rest_units capacity i order.type f.order (Function.update R s f.opposite) with
        hrest | ⟨hrest, hfull⟩
      · refine ⟨0, by omega, fun h0 => absurd rfl h0⟩
      · rw [hrest]
        have hpart : f.order.PartOf order := fill_order _ _ _
        exact ⟨_, hfill, fun hd => ⟨hpart.orderId.symm.trans (unitsOf_singleton_ne_zero hd).1,
          Or.inr (Or.inr (hfull hd))⟩⟩
    · simp only [if_pos hv]
      refine ⟨unitsOf (· = i) [order], ?_, fun hd =>
        ⟨(unitsOf_singleton_ne_zero hd).1, Or.inr (Or.inl hv)⟩⟩
      simp [traded, incomingTraded, restingTraded]

end PriceTime

end TradeX
