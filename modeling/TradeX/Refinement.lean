import TradeX.Represents

/-!
# The matching loops refine price-time priority

`matchLoop_spec` is the simulation of the loop : on a book that represents two priority
lists, with enough fuel, it makes the executions of `PriceTime.fill` and leaves a book that
represents what `fill` leaves. `processOrder_spec` is one `process_order` call, and
`Simulates.run` a run.

A call keeps the representation if it does not rest an order the book cannot hold
(`Admissible`) : the step lemmas are proved from that, so that they also serve books with
bands in which not every price has a level of its own. They are proved of books in which orders
may rest at the sentinels (`SimulatesUpTo`), where a call must also not hide what it rests
(`Hides`).
-/

namespace TradeX

open PriceTime

/-! ## Filling an order from a list -/

namespace PriceTime

variable {s : OrderType} {accepts : ℕ → Prop} [DecidablePred accepts]

/-- Filling changes the quantity of the incoming order and nothing else. -/
theorem fill_order : ∀ (id : ℕ) (order : Order) (l : List Order),
    (fill s accepts id order l).order.PartOf order
  | _, order, [] => .refl order
  | id, order, o :: l => by
    rw [fill]
    split_ifs
    · exact .of_le (Nat.zero_le _)
    · exact (fill_order _ _ l).trans (.of_le (Nat.sub_le _ _))
    · exact .refl order

/-- An order with units left accepts no price of the list it leaves, if the list is sorted
and the order accepts with a price every better one. -/
theorem not_accepts_of_fill (hacc : ∀ p q, better s p q → accepts q → accepts p) :
    ∀ (id : ℕ) (order : Order) (l : List Order),
      l.Pairwise (fun o o' => better s o.price o'.price) →
      0 < (fill s accepts id order l).order.quantity →
      ∀ o ∈ (fill s accepts id order l).opposite, ¬accepts o.price
  | _, _, [], _, _, o, ho => absurd ho List.not_mem_nil
  | id, order, o :: l, hs, hpos, o', ho' => by
    rw [fill] at hpos ho'
    split_ifs at hpos ho' with hc hlt
    · simp at hpos
    · exact not_accepts_of_fill hacc _ _ l hs.of_cons hpos o' ho'
    · have hno : ¬accepts o.price := fun ha => hc ⟨hpos, ha⟩
      rcases List.mem_cons.1 ho' with rfl | ho'
      · exact hno
      · exact fun ha => hno (hacc _ _ ((List.pairwise_cons.1 hs).1 o' ho') ha)

/-- An order that accepts no price of the list is left as it is. -/
theorem fill_eq_self (id : ℕ) (order : Order) {l : List Order}
    (h : ∀ o ∈ l, ¬accepts o.price) : fill s accepts id order l = ⟨[], l, order⟩ := by
  cases l with
  | nil => rfl
  | cons o l => rw [fill, if_neg fun hc => h o List.mem_cons_self hc.2]

/-- Orders that stay in the list were in it, perhaps with more units. -/
theorem mem_of_mem_fill : ∀ (id : ℕ) (order : Order) (l : List Order) {o : Order},
    o ∈ (fill s accepts id order l).opposite → ∃ o' ∈ l, o.PartOf o'
  | _, _, [], o, ho => absurd ho List.not_mem_nil
  | id, order, a :: l, o, ho => by
    rw [fill] at ho
    split_ifs at ho
    · rcases List.mem_cons.1 ho with rfl | ho
      · exact ⟨a, List.mem_cons_self, .of_le (Nat.sub_le _ _)⟩
      · exact ⟨o, List.mem_cons_of_mem _ ho, .refl o⟩
    · obtain ⟨o', ho', hpart⟩ := mem_of_mem_fill _ _ l ho
      exact ⟨o', List.mem_cons_of_mem _ ho', hpart⟩
    · exact ⟨o, ho, .refl o⟩

/-- An order that accepts every price of the list and has units left has filled the list. -/
theorem sum_lt_of_fill : ∀ (id : ℕ) (order : Order) (l : List Order),
    (∀ o ∈ l, accepts o.price) →
    0 < (fill s accepts id order l).order.quantity → (l.map Order.quantity).sum < order.quantity
  | _, _, [], _, hpos => hpos
  | id, order, o :: l, hacc, hpos => by
    have ho := hacc o List.mem_cons_self
    rw [fill] at hpos
    split_ifs at hpos with hc hlt
    · simp at hpos
    · have ih : (l.map Order.quantity).sum < order.quantity - o.quantity :=
        sum_lt_of_fill _ _ l (fun o' ho' => hacc o' (List.mem_cons_of_mem _ ho')) hpos
      simp only [List.map_cons, List.sum_cons]
      omega
    · exact absurd ⟨hpos, ho⟩ hc

end PriceTime

/-! ## The loop -/

/-- The loop makes the executions of `fill`, and its book represents what `fill` leaves.
It returns early only when the order is filled, and no level gets a flag. -/
theorem matchLoop_upTo {edges : Prop} {s : OrderType} (guard : ℕ → Bool)
    (accepts : ℕ → Prop)
    [DecidablePred accepts] :
    ∀ (l : List Order) {b : OrderBook} {R : Book} (_ : RepresentsUpTo edges b R)
    (_ : R s = l) (_ : ∀ o ∈ l, guard o.price = true ↔ accepts o.price) {fuel : ℕ}
    (_ : l.length < fuel) (id : ℕ) (order : Order),
    ∃ b' rem, matchLoop s guard fuel id (bestOf b s l) b order =
        .ok ⟨b', (fill s accepts id order l).executions, rem⟩ ∧
      OrderBook.SameFrame b b' ∧ (∀ j, b'.flag j = true → b.flag j = true) ∧
      RepresentsUpTo edges b' (Function.update R s (fill s accepts id order l).opposite) ∧
      (rem = some (fill s accepts id order l).order ∨
        rem = none ∧ (fill s accepts id order l).order.quantity = 0)
  | [], b, R, h, hR, _, fuel + 1, _, id, order => by
    have ht := (h.total_eq_zero_iff s).2 hR
    refine ⟨b, some order, ?_, .refl b, fun _ hf => hf, ?_, Or.inl rfl⟩
    · simp [matchLoop, fill, ht]
    · rw [fill, ← hR, Function.update_eq_self]
      exact h
  | o :: l, b, R, h, hR, hg, fuel + 1, hfuel, id, order => by
    have ht : 0 < b.getTotalQty s := by
      rw [Nat.pos_iff_ne_zero, ne_eq, h.total_eq_zero_iff s, hR]
      exact List.cons_ne_nil o l
    have hhead := h.headAt_first hR
    have hgo := hg o List.mem_cons_self
    rw [fill, matchLoop]
    simp only [bestOf, ht, hgo, true_and, hhead, ok_bind]
    by_cases hc : 0 < order.quantity ∧ accepts o.price
    · rw [if_pos hc, if_pos hc]
      by_cases hlt : order.quantity < o.quantity
      · -- the head is larger : it is shrunk and the loop returns
        rw [if_pos hlt, if_pos hlt]
        obtain ⟨b', hmod, hframe, hflag, hrep⟩ := h.shrinkHead_spec hR hlt
        rw [hmod, ok_bind]
        exact ⟨_, none, rfl, hframe, fun j hf => hflag j ▸ hf, hrep, Or.inr ⟨rfl, rfl⟩⟩
      · -- the head is filled : it is removed and the loop goes on with the next
        rw [if_neg hlt, if_neg hlt]
        obtain ⟨b₁, b₂, hrm, hbest, hframe, hflag, hrep⟩ := h.fillHead_spec hR
        have hbo := bestOf_of_frame hframe s l
        obtain ⟨b', rem, hrun, hframe', hflag', hrep', hrem⟩ :=
          matchLoop_upTo guard accepts l hrep (Function.update_self s l R)
          (fun o' ho' => hg o' (List.mem_cons_of_mem _ ho')) (Nat.lt_of_succ_lt_succ hfuel)
          (nextTradeId id) { order with quantity := order.quantity - o.quantity }
        rw [hrm, ok_bind]
        simp only [hbest, ok_bind, ← hbo, hrun]
        refine ⟨b', rem, rfl, hframe.trans hframe', fun j hf => hflag j (hflag' j hf), ?_, hrem⟩
        simpa using hrep'
    · rw [if_neg hc, if_neg hc]
      refine ⟨b, some order, rfl, .refl b, fun _ hf => hf, ?_, Or.inl rfl⟩
      rw [← hR, Function.update_eq_self]
      exact h

/-- The loop away from the sentinels. -/
theorem matchLoop_spec {s : OrderType} (guard : ℕ → Bool) (accepts : ℕ → Prop)
    [DecidablePred accepts] (l : List Order) {b : OrderBook} {R : Book} (h : Represents b R)
    (hR : R s = l) (hg : ∀ o ∈ l, guard o.price = true ↔ accepts o.price) {fuel : ℕ}
    (hfuel : l.length < fuel) (id : ℕ) (order : Order) :
    ∃ b' rem, matchLoop s guard fuel id (bestOf b s l) b order =
        .ok ⟨b', (fill s accepts id order l).executions, rem⟩ ∧
      OrderBook.SameFrame b b' ∧
      Represents b' (Function.update R s (fill s accepts id order l).opposite) ∧
      (rem = some (fill s accepts id order l).order ∨
        rem = none ∧ (fill s accepts id order l).order.quantity = 0) := by
  obtain ⟨b', rem, hrun, hframe, -, hrep, hrem⟩ :=
    matchLoop_upTo guard accepts l (represents_iff.1 h) hR hg hfuel id order
  exact ⟨b', rem, hrun, hframe, represents_iff.2 hrep, hrem⟩

/-! ## One order -/

/-- The fill of an incoming order against the lists. -/
def fillOf (R : Book) (id : ℕ) (order : Order) : Fill :=
  let s := order.type.opposite
  if order.executionType = .market then fill s (fun _ => True) id order (R s)
  else fill s (fun p => better s p order.price) id order (R s)

/-- What is left of an order rests if its price has a level and a node is free. -/
def restOn (b : OrderBook) (o : Order) (R : Book) : Book :=
  if b.hasLevel (b.priceToIndex o.price) then rest b.pool.capacity o.type o R else R

/-- A `process_order` call on the lists a book represents. -/
def applyOn (b : OrderBook) (id : ℕ) (R : Book) (order : Order) : Book × List Execution :=
  let f := fillOf R id order
  let R' := Function.update R order.type.opposite f.opposite
  if order.executionType = .market then (R', f.executions)
  else if ¬b.isPriceValid order.price then (R, [])
  else (restOn b f.order R', f.executions)

/-- The order passes the first test of `process_buy` or `process_sell` : its matching loop
is entered. -/
def Crosses (b : OrderBook) (order : Order) : Prop :=
  b.getTotalQty order.type.opposite ≠ 0 ∧
    ∃ best b', b.bestprice order.type.opposite = .ok (best, b') ∧
      better order.type.opposite best order.price

/-- A `process_order` call does not rest an order the book cannot hold : at the level of
another price, at the sentinel of its side, or with no units. -/
def Admissible (b : OrderBook) (order : Order) : Prop :=
  order.executionType ≠ .market → b.isPriceValid order.price →
    b.hasLevel (b.priceToIndex order.price) →
      b.Fits order.type order.price ∧
        (order.quantity = 0 → Crosses b order ∨ b.pool.used = b.pool.capacity)

/-- What is left of the order rests at the sentinel of the other side, at a level that an order of
that side has flagged : its price is not pushed. -/
def Hides (b : OrderBook) (order : Order) : Prop :=
  order.executionType ≠ .market ∧ b.isPriceValid order.price ∧
    order.price = (b.side order.type.opposite).defaultBestPrice ∧
    b.flag (order.price - b.lowerLimit) = true ∧
    (∀ o ∈ b.queue (order.price - b.lowerLimit), o.type ≠ order.type) ∧
    b.getTotalQty order.type.opposite < order.quantity ∧
    (0 < b.getTotalQty order.type.opposite ∨ b.pool.used < b.pool.capacity)

instance (b : OrderBook) (order : Order) : Decidable (Hides b order) :=
  inferInstanceAs (Decidable (_ ∧ _ ∧ _ ∧ _ ∧ _ ∧ _ ∧ _))

/-- `Admissible`, but an order may rest at the sentinel of its side if `edges`. It must not be
hidden then. -/
structure AdmissibleUpTo (edges : Prop) (b : OrderBook) (order : Order) : Prop where
  fits : order.executionType ≠ .market → b.isPriceValid order.price →
    b.hasLevel (b.priceToIndex order.price) →
      OrderBook.FitsUpTo edges b order.type order.price ∧
        (order.quantity = 0 → Crosses b order ∨ b.pool.used = b.pool.capacity)
  seen : edges → ¬Hides b order

theorem admissible_iff {b : OrderBook} {order : Order} :
    Admissible b order ↔ AdmissibleUpTo False b order := by
  constructor
  · exact fun h => ⟨fun hm hv hl => (h hm hv hl).imp_left OrderBook.fits_iff.1, False.elim⟩
  · exact fun h hm hv hl => (h.fits hm hv hl).imp_left OrderBook.fits_iff.2

namespace RepresentsUpTo

variable {edges : Prop} {b : OrderBook} {R : Book} {o order : Order}

/-- Resting what is left of an order that does not cross the book. -/
theorem restOn_spec (h : RepresentsUpTo edges b R) (hr : o.InRange)
    (hfit : b.hasLevel (b.priceToIndex o.price) → OrderBook.FitsUpTo edges b o.type o.price ∧
      (o.quantity = 0 → b.pool.used = b.pool.capacity))
    (hseen : edges → o.price = (b.side o.type.opposite).defaultBestPrice →
      b.flag (o.price - b.lowerLimit) = true → 0 < o.quantity →
        b.pool.used < b.pool.capacity → b.queue (o.price - b.lowerLimit) ≠ [])
    (hfresh : ∀ r, ∀ o' ∈ R r, o'.orderId ≠ o.orderId)
    (hcross : ∀ o' ∈ R o.type.opposite, ¬better o.type.opposite o'.price o.price) :
    ∃ r b', b.addOrder o.type o = .ok (r, b') ∧ OrderBook.SameFrame b b' ∧
      RepresentsUpTo edges b' (restOn b o R) := by
  unfold restOn rest
  by_cases hl : b.hasLevel (b.priceToIndex o.price)
  · obtain ⟨hf, hzero⟩ := hfit hl
    rw [if_pos hl]
    by_cases hfree : R.size < b.pool.capacity
    · have hpos : 0 < o.quantity := Nat.pos_of_ne_zero fun h0 => by
        have := hzero h0
        have := h.used
        omega
      rw [if_pos ⟨hpos, hfree⟩]
      obtain ⟨b', hadd, hframe, hrep⟩ := h.insert_spec ⟨rfl, hpos, hr, hf⟩ hfresh hcross
        (fun hedges hsent hflag => hseen hedges hsent hflag hpos (h.used ▸ hfree)) hfree
      exact ⟨true, b', hadd, hframe, hrep⟩
    · have hfull : b.pool.used = b.pool.capacity := by
        have := h.wf.used_le
        have := h.used
        omega
      rw [if_neg fun hc => hfree hc.2]
      exact ⟨false, b, h.wf.addOrder_full hfull hf.index hf.level, .refl b, h⟩
  · rw [if_neg hl]
    exact ⟨false, b, OrderBook.addOrder_no_level hl, .refl b, h⟩

theorem length_lt_fuel (h : RepresentsUpTo edges b R) (s : OrderType) (order : Order) :
    (R s).length < matchFuel b order := by
  have := h.used
  have := size_eq R s
  unfold matchFuel
  omega

/-- The orders left by a fill keep their ids, so a fresh id stays fresh. -/
theorem fresh_fill {accepts : ℕ → Prop} [DecidablePred accepts] {s : OrderType} (id : ℕ)
    (hfresh : ∀ r, ∀ o' ∈ R r, o'.orderId ≠ order.orderId) :
    ∀ r, ∀ o' ∈ Function.update R s (fill s accepts id order (R s)).opposite r,
      o'.orderId ≠ order.orderId := by
  intro r o' ho'
  rcases OrderType.eq_or_eq_opposite s r with rfl | rfl
  · rw [Function.update_self] at ho'
    obtain ⟨o₁, ho₁, hpart⟩ := mem_of_mem_fill _ _ _ ho'
    exact hpart.orderId ▸ hfresh r o₁ ho₁
  · exact hfresh _ o' (by simpa using ho')

theorem processMarket_spec (h : RepresentsUpTo edges b R) (hm : order.executionType = .market)
    (id : ℕ) :
    ∃ b', processMarket order.type id b order = .ok (b', (fillOf R id order).executions) ∧
      OrderBook.SameFrame b b' ∧
      RepresentsUpTo edges b' (Function.update R order.type.opposite
        (fillOf R id order).opposite) := by
  simp only [fillOf, if_pos hm]
  unfold processMarket
  set s := order.type.opposite
  by_cases ht : b.getTotalQty s = 0
  · have hR := (h.total_eq_zero_iff s).1 ht
    refine ⟨b, ?_, .refl b, ?_⟩
    · rw [if_pos ht, hR]
      rfl
    · rw [hR, fill, ← hR, Function.update_eq_self]
      exact h
  · rw [if_neg ht, h.bestprice_eq s, ok_bind]
    obtain ⟨b', rem, hrun, hframe, -, hrep, -⟩ := matchLoop_upTo
      (fun p => decide (b.isPriceValid p)) (fun _ => True) (R s) h rfl
      (fun o ho => by simpa using (h.resting s o ho).2.2.2.valid) (h.length_lt_fuel s order) id
        order
    refine ⟨b', ?_, hframe, hrep⟩
    simp only [hrun, ok_bind]

theorem better_of_crosses (h : RepresentsUpTo edges b R) (hc : Crosses b order) :
    better order.type.opposite (bestOf b order.type.opposite (R order.type.opposite))
      order.price := by
  obtain ⟨-, best, b', hb, hbetter⟩ := hc
  rw [h.bestprice_eq] at hb
  obtain ⟨rfl, -⟩ := Prod.mk.inj (Except.ok.inj hb)
  exact hbetter

theorem not_better_of_not_crosses (h : RepresentsUpTo edges b R) (hno : ¬Crosses b order) :
    ∀ o ∈ R order.type.opposite, ¬better order.type.opposite o.price order.price := by
  intro o ho hb
  have hne : R order.type.opposite ≠ [] := List.ne_nil_of_mem ho
  obtain ⟨o₁, l, hR⟩ := List.exists_cons_of_ne_nil hne
  refine hno ⟨mt (h.total_eq_zero_iff _).1 hne, _, b, h.bestprice_eq _, ?_⟩
  rw [hR]
  exact better_trans (h.better_of_mem hR ho) hb

/-- A level that is flagged for the other side hides no order that does not cross the book. -/
theorem queue_ne_nil_of_not_crosses (h : RepresentsUpTo edges b R)
    (hm : order.executionType ≠ .market) (hv : b.isPriceValid order.price)
    (hhide : ¬Hides b order) (hno : ¬Crosses b order)
    (hsent : order.price = (b.side order.type.opposite).defaultBestPrice)
    (hflag : b.flag (order.price - b.lowerLimit) = true) (hpos : 0 < order.quantity)
    (hroom : b.pool.used < b.pool.capacity) : b.queue (order.price - b.lowerLimit) ≠ [] := by
  intro hnil
  have hnone : R order.type.opposite = [] := by
    refine List.eq_nil_iff_forall_not_mem.2 fun o ho => h.not_better_of_not_crosses hno o ho ?_
    rw [hsent]
    exact (h.resting _ o ho).2.2.2.better_sentinel
  have htotal := (h.total_eq_zero_iff _).2 hnone
  refine hhide ⟨hm, hv, hsent, hflag, fun o ho => ?_, htotal ▸ hpos, Or.inr hroom⟩
  rw [hnil] at ho
  exact absurd ho List.not_mem_nil

/-- An order that crosses the book and rests at the sentinel of the other side has filled all
orders of that side, and none of its own side is at its level. -/
theorem hides_of_crosses (h : RepresentsUpTo edges b R) (hm : order.executionType ≠ .market)
    (hv : b.isPriceValid order.price) (hc : Crosses b order)
    (hsent : order.price = (b.side order.type.opposite).defaultBestPrice)
    (hflag : b.flag (order.price - b.lowerLimit) = true) (id : ℕ)
    (hleft : 0 < (fill order.type.opposite (fun p => better order.type.opposite p order.price) id
      order (R order.type.opposite)).order.quantity) : Hides b order := by
  have htotal := hc.1
  refine ⟨hm, hv, hsent, hflag, fun o ho htype => ?_, ?_, Or.inl (Nat.pos_of_ne_zero htotal)⟩
  · obtain ⟨r, hr, hp⟩ := h.mem_queue.1 ho
    rw [Nat.add_sub_cancel' hv.1] at hp
    obtain rfl : r = order.type := (h.resting r o hr).1.symm.trans htype
    obtain ⟨o₁, l, hR⟩ := List.exists_cons_of_ne_nil (mt (h.total_eq_zero_iff _).2 htotal)
    have hbest := h.better_of_crosses hc
    rw [hR, ← hp] at hbest
    exact h.not_crossing hr (hR ▸ List.mem_cons_self) hbest
  · rw [OrderBook.getTotalQty, h.total]
    refine sum_lt_of_fill id order _ (fun o ho => ?_) hleft
    rw [hsent]
    exact (h.resting _ o ho).2.2.2.better_sentinel

/-- An order that does not cross the book rests. -/
theorem processLimit_of_not_crosses (h : RepresentsUpTo edges b R) (hno : ¬Crosses b order)
    (hm : order.executionType ≠ .market) (hv : b.isPriceValid order.price) (hr : order.InRange)
    (hfit : b.hasLevel (b.priceToIndex order.price) →
      OrderBook.FitsUpTo edges b order.type order.price ∧
        (order.quantity = 0 → b.pool.used = b.pool.capacity))
    (hhide : edges → ¬Hides b order)
    (hfresh : ∀ r, ∀ o' ∈ R r, o'.orderId ≠ order.orderId) (id : ℕ) :
    ∃ b', processLimit order.type id b order = .ok (b', []) ∧ OrderBook.SameFrame b b' ∧
      RepresentsUpTo edges b' (restOn b order R) := by
  obtain ⟨r, b', hadd, hframe, hrep⟩ := h.restOn_spec hr hfit
    (fun hedges hsent hflag hpos hroom =>
      h.queue_ne_nil_of_not_crosses hm hv (hhide hedges) hno hsent hflag hpos hroom)
    hfresh (h.not_better_of_not_crosses hno)
  refine ⟨b', ?_, hframe, hrep⟩
  unfold processLimit
  by_cases ht : b.getTotalQty order.type.opposite = 0
  · rw [if_pos ht, hadd]
    rfl
  · have hbest : ¬better order.type.opposite
        (bestOf b order.type.opposite (R order.type.opposite))
        order.price := fun hb => hno ⟨ht, _, b, h.bestprice_eq _, hb⟩
    rw [if_neg ht, h.bestprice_eq, ok_bind]
    simp only [hbest, not_false_eq_true, if_true, hadd, ok_bind]

/-- What is left of an order after the loop rests. -/
theorem restFill_spec (h : RepresentsUpTo edges b R) (hr : order.InRange)
    (hfit : b.hasLevel (b.priceToIndex order.price) →
      OrderBook.FitsUpTo edges b order.type order.price)
    (hfresh : ∀ r, ∀ o' ∈ R r, o'.orderId ≠ order.orderId) (id : ℕ) {f : Fill}
    (hf : f = fill order.type.opposite (fun p => better order.type.opposite p order.price) id order
      (R order.type.opposite)) (hleft : 0 < f.order.quantity) {b' : OrderBook}
    (hframe : OrderBook.SameFrame b b')
    (hseen : edges → order.price = (b.side order.type.opposite).defaultBestPrice →
      b'.flag (order.price - b.lowerLimit) ≠ true)
    (hrep : RepresentsUpTo edges b' (Function.update R order.type.opposite f.opposite)) :
    ∃ r b'', b'.addOrder order.type f.order = .ok (r, b'') ∧ OrderBook.SameFrame b b'' ∧
      RepresentsUpTo edges b''
        (restOn b f.order (Function.update R order.type.opposite f.opposite)) := by
  have hpart : f.order.PartOf order := hf ▸ fill_order id order _
  have hcross : ∀ o' ∈ Function.update R order.type.opposite f.opposite f.order.type.opposite,
      ¬better f.order.type.opposite o'.price f.order.price := by
    rw [hpart.type, Function.update_self, hpart.price, hf]
    exact not_accepts_of_fill (fun p q hpq hq => better_trans hpq hq) id order _ (h.sorted _)
      (hf ▸ hleft)
  have hfit' : b'.hasLevel (b'.priceToIndex f.order.price) →
      OrderBook.FitsUpTo edges b' f.order.type f.order.price ∧
        (f.order.quantity = 0 → b'.pool.used = b'.pool.capacity) := by
    rw [hpart.type, hpart.price, hframe.priceToIndex, hframe.hasLevel_iff]
    exact fun hl => ⟨hframe.fitsUpTo (hfit hl), fun h0 => absurd h0 hleft.ne'⟩
  have hseen' : edges → f.order.price = (b'.side f.order.type.opposite).defaultBestPrice →
      b'.flag (f.order.price - b'.lowerLimit) ≠ true := by
    rw [hpart.type, hpart.price, hframe.sentinel, hframe.lower]
    exact hseen
  have hfresh' : ∀ r, ∀ o' ∈ Function.update R order.type.opposite f.opposite r,
      o'.orderId ≠ f.order.orderId := by
    rw [hpart.orderId, hf]
    exact fresh_fill id hfresh
  obtain ⟨r, b'', hadd, hframe', hrep'⟩ := hrep.restOn_spec (lt_of_le_of_lt hpart.le hr) hfit'
    (fun hedges hsent hflag _ _ => absurd hflag (hseen' hedges hsent)) hfresh' hcross
  have hsame : restOn b' f.order (Function.update R order.type.opposite f.opposite) =
      restOn b f.order (Function.update R order.type.opposite f.opposite) := by
    unfold restOn
    rw [hframe.capacity, hframe.priceToIndex]
    exact if_congr (hframe.hasLevel_iff _) rfl rfl
  rw [hpart.type] at hadd
  exact ⟨r, b'', hadd, hframe.trans hframe', hsame ▸ hrep'⟩

/-- What `process_buy` and `process_sell` do with the result of their loop. -/
theorem processLimit_of_loop (h : RepresentsUpTo edges b R) {t : OrderType} {id : ℕ}
    {order : Order} (ht : b.getTotalQty t.opposite ≠ 0)
    (hbest : better t.opposite (bestOf b t.opposite (R t.opposite)) order.price) {r : MatchResult}
    (hloop : matchLoop t.opposite (fun p => decide (better t.opposite p order.price))
      (matchFuel b order) id (bestOf b t.opposite (R t.opposite)) b order = .ok r) :
    processLimit t id b order = match r.remainder with
      | none => .ok (r.book, r.executions)
      | some o =>
        if 0 < o.quantity then do
          let (_, book) ← r.book.addOrder t o
          .ok (book, r.executions)
        else .ok (r.book, r.executions) := by
  rw [processLimit, if_neg ht, h.bestprice_eq, ok_bind]
  refine (if_neg (not_not.2 hbest)).trans ?_
  rw [h.bestprice_eq, ok_bind]
  exact congrArg (· >>= _) hloop

/-- An order that crosses the book is matched, and what is left of it rests. -/
theorem processLimit_of_crosses (h : RepresentsUpTo edges b R) (hc : Crosses b order)
    (hm : order.executionType ≠ .market) (hv : b.isPriceValid order.price) (hr : order.InRange)
    (hfit : b.hasLevel (b.priceToIndex order.price) →
      OrderBook.FitsUpTo edges b order.type order.price)
    (hhide : edges → ¬Hides b order)
    (hfresh : ∀ r, ∀ o' ∈ R r, o'.orderId ≠ order.orderId) (id : ℕ) {f : Fill}
    (hf : f = fill order.type.opposite (fun p => better order.type.opposite p order.price) id order
      (R order.type.opposite)) :
    ∃ b', processLimit order.type id b order = .ok (b', f.executions) ∧
      OrderBook.SameFrame b b' ∧
      RepresentsUpTo edges b' (restOn b f.order
        (Function.update R order.type.opposite f.opposite)) := by
  have hbest := h.better_of_crosses hc
  obtain ⟨b', rem, hrun, hframe, hflags, hrep, hrem⟩ := matchLoop_upTo
    (fun p => decide (better order.type.opposite p order.price))
    (fun p => better order.type.opposite p order.price) (R order.type.opposite) h rfl
    (fun o ho => by simp) (h.length_lt_fuel _ order) id order
  rw [← hf] at hrun hrep hrem
  have hlimit := h.processLimit_of_loop hc.1 hbest hrun
  by_cases hleft : 0 < f.order.quantity
  · obtain rfl : rem = some f.order := hrem.resolve_right fun hnone => by omega
    obtain ⟨r, b'', hadd, hframe', hrep'⟩ := h.restFill_spec hr hfit hfresh id hf hleft hframe
      (fun hedges hsent hflag => hhide hedges
        (h.hides_of_crosses hm hv hc hsent (hflags _ hflag) id (hf ▸ hleft))) hrep
    refine ⟨b'', hlimit.trans ((if_pos hleft).trans ?_), hframe', hrep'⟩
    exact bind_eq_ok.2 ⟨_, hadd, rfl⟩
  · refine ⟨b', ?_, hframe, ?_⟩
    · rcases hrem with rfl | ⟨rfl, -⟩
      · exact hlimit.trans (if_neg hleft)
      · exact hlimit
    · have hnone : restOn b f.order (Function.update R order.type.opposite f.opposite) =
          Function.update R order.type.opposite f.opposite := by
        simp [restOn, rest, hleft]
      rw [hnone]
      exact hrep

theorem processLimit_spec (h : RepresentsUpTo edges b R) (hm : order.executionType ≠ .market)
    (hv : b.isPriceValid order.price) (hr : order.InRange)
    (hfit : b.hasLevel (b.priceToIndex order.price) →
      OrderBook.FitsUpTo edges b order.type order.price ∧
        (order.quantity = 0 → Crosses b order ∨ b.pool.used = b.pool.capacity))
    (hhide : edges → ¬Hides b order)
    (hfresh : ∀ r, ∀ o' ∈ R r, o'.orderId ≠ order.orderId) (id : ℕ) :
    ∃ b', processLimit order.type id b order = .ok (b', (fillOf R id order).executions) ∧
      OrderBook.SameFrame b b' ∧
      RepresentsUpTo edges b' (restOn b (fillOf R id order).order
        (Function.update R order.type.opposite (fillOf R id order).opposite)) := by
  simp only [fillOf, if_neg hm]
  by_cases hc : Crosses b order
  · exact h.processLimit_of_crosses hc hm hv hr (fun hl => (hfit hl).1) hhide hfresh id rfl
  · have hfill : fill order.type.opposite (fun p => better order.type.opposite p order.price) id
        order
        (R order.type.opposite) = ⟨[], R order.type.opposite, order⟩ :=
      fill_eq_self id order (h.not_better_of_not_crosses hc)
    rw [hfill, Function.update_eq_self]
    exact h.processLimit_of_not_crosses hc hm hv hr
      (fun hl => ⟨(hfit hl).1, fun h0 => ((hfit hl).2 h0).resolve_left hc⟩) hhide hfresh id

/-- One `process_order` call does to the lists what `applyOn` says. -/
theorem processOrder_spec (h : RepresentsUpTo edges b R) (hr : order.InRange)
    (hadm : AdmissibleUpTo edges b order)
    (hfresh : ∀ r, ∀ o' ∈ R r, o'.orderId ≠ order.orderId) (id : ℕ) :
    ∃ b', processOrder id b order = .ok (b', (applyOn b id R order).2) ∧
      OrderBook.SameFrame b b' ∧ RepresentsUpTo edges b' (applyOn b id R order).1 := by
  unfold processOrder applyOn
  by_cases hm : order.executionType = .market
  · obtain ⟨b', hp, hframe, hrep⟩ := h.processMarket_spec hm id
    refine ⟨b', ?_, hframe, ?_⟩
    · rw [if_pos hm, if_pos hm, ← hp]
      cases order.type <;> rfl
    · rw [if_pos hm]
      exact hrep
  · by_cases hv : b.isPriceValid order.price
    · obtain ⟨b', hp, hframe, hrep⟩ :=
        h.processLimit_spec hm hv hr (hadm.fits hm hv) hadm.seen hfresh id
      refine ⟨b', ?_, hframe, ?_⟩
      · rw [if_neg hm, if_neg hm, if_neg (not_not.2 hv), if_neg (not_not.2 hv), ← hp]
        cases order.type <;> rfl
      · rw [if_neg hm, if_neg (not_not.2 hv)]
        exact hrep
    · refine ⟨b, ?_, .refl b, ?_⟩
      · rw [if_neg hm, if_neg hm, if_pos hv, if_pos hv]
      · rw [if_neg hm, if_pos hv]
        exact h

end RepresentsUpTo

namespace Represents

variable {b : OrderBook} {R : Book} {order : Order}

theorem length_lt_fuel (h : Represents b R) (s : OrderType) (order : Order) :
    (R s).length < matchFuel b order :=
  (represents_iff.1 h).length_lt_fuel s order

/-- What `process_buy` and `process_sell` do with the result of their loop. -/
theorem processLimit_of_loop (h : Represents b R) {t : OrderType} {id : ℕ} {order : Order}
    (ht : b.getTotalQty t.opposite ≠ 0)
    (hbest : better t.opposite (bestOf b t.opposite (R t.opposite)) order.price) {r : MatchResult}
    (hloop : matchLoop t.opposite (fun p => decide (better t.opposite p order.price))
      (matchFuel b order) id (bestOf b t.opposite (R t.opposite)) b order = .ok r) :
    processLimit t id b order = match r.remainder with
      | none => .ok (r.book, r.executions)
      | some o =>
        if 0 < o.quantity then do
          let (_, book) ← r.book.addOrder t o
          .ok (book, r.executions)
        else .ok (r.book, r.executions) :=
  (represents_iff.1 h).processLimit_of_loop ht hbest hloop

end Represents

/-! ## A run -/

/-- An engine and a state of the reference matcher with the same trades and the same
resting orders; `b₀` is the book the engine started with. -/
structure Simulates (b₀ : OrderBook) (st : EngineState) (a : PriceTime.State) : Prop where
  frame : OrderBook.SameFrame b₀ st.book
  represents : Represents st.book a.book
  tradeId : st.tradeId = a.tradeId
  published : st.published = a.published

/-- The state of the lists after a `process_order` call on the book `b`. -/
def applyStep (b : OrderBook) (a : PriceTime.State) (order : Order) : PriceTime.State :=
  let r := applyOn b a.tradeId a.book order
  ⟨r.1, add64 a.tradeId r.2.length, a.published ++ r.2⟩

/-- `Simulates`, but orders may rest at the sentinels if `edges`. -/
structure SimulatesUpTo (edges : Prop) (b₀ : OrderBook) (st : EngineState) (a : PriceTime.State) :
    Prop where
  frame : OrderBook.SameFrame b₀ st.book
  represents : RepresentsUpTo edges st.book a.book
  tradeId : st.tradeId = a.tradeId
  published : st.published = a.published

theorem simulates_iff {b₀ : OrderBook} {st : EngineState} {a : PriceTime.State} :
    Simulates b₀ st a ↔ SimulatesUpTo False b₀ st a :=
  ⟨fun h => ⟨h.frame, represents_iff.1 h.represents, h.tradeId, h.published⟩,
    fun h => ⟨h.frame, represents_iff.2 h.represents, h.tradeId, h.published⟩⟩

/-- One step of the simulation. -/
theorem SimulatesUpTo.step {edges : Prop} {b₀ : OrderBook} {st : EngineState}
    {a : PriceTime.State} {order : Order} (h : SimulatesUpTo edges b₀ st a) (hr : order.InRange)
    (hadm : AdmissibleUpTo edges st.book order)
    (hfresh : ∀ r, ∀ o' ∈ a.book r, o'.orderId ≠ order.orderId) :
    ∃ st', st.step order = .ok st' ∧
      SimulatesUpTo edges b₀ st' (applyStep st.book a order) := by
  obtain ⟨b', hp, hframe, hrep⟩ := h.represents.processOrder_spec hr hadm hfresh st.tradeId
  refine ⟨_, by rw [EngineState.step, hp]; rfl, h.frame.trans hframe, ?_, ?_, ?_⟩
  · rw [applyStep, ← h.tradeId]
    exact hrep
  · simp only [applyStep, h.tradeId]
  · simp only [applyStep, h.tradeId, h.published]

theorem PriceTime.mem_rest {capacity : ℕ} {t r : OrderType} {o o' : Order} {R : Book}
    (h : o' ∈ rest capacity t o R r) : o' = o ∨ o' ∈ R r := by
  unfold rest at h
  split_ifs at h
  · rcases OrderType.eq_or_eq_opposite t r with rfl | rfl
    · rw [Function.update_self] at h
      exact mem_insert.1 h
    · rw [Function.update_of_ne (OrderType.opposite_ne _)] at h
      exact Or.inr h
  · exact Or.inr h

theorem mem_restOn {b : OrderBook} {o o' : Order} {R : Book} {r : OrderType}
    (h : o' ∈ restOn b o R r) : o' = o ∨ o' ∈ R r := by
  unfold restOn at h
  split_ifs at h
  · exact mem_rest h
  · exact Or.inr h

/-- The resting orders are what is left of orders that rested before, and of the incoming
order. -/
theorem partOf_of_mem_applyOn {b : OrderBook} {id : ℕ} {R : Book} {order o : Order}
    {r : OrderType} (ho : o ∈ (applyOn b id R order).1 r) :
    o.PartOf order ∨ ∃ r', ∃ o' ∈ R r', o.PartOf o' := by
  have hopp : ∀ {o : Order} {r}, o ∈ Function.update R order.type.opposite
      (fillOf R id order).opposite r → ∃ r', ∃ o' ∈ R r', o.PartOf o' := by
    intro o r ho
    rcases OrderType.eq_or_eq_opposite order.type.opposite r with rfl | rfl
    · rw [Function.update_self, fillOf] at ho
      split_ifs at ho
      · exact ⟨_, mem_of_mem_fill _ _ _ ho⟩
      · exact ⟨_, mem_of_mem_fill _ _ _ ho⟩
    · rw [Function.update_of_ne (OrderType.opposite_ne _)] at ho
      exact ⟨_, o, ho, .refl o⟩
  simp only [applyOn] at ho
  by_cases hm : order.executionType = .market
  · rw [if_pos hm] at ho
    exact Or.inr (hopp ho)
  · rw [if_neg hm] at ho
    by_cases hv : b.isPriceValid order.price
    · rw [if_neg (not_not.2 hv)] at ho
      rcases mem_restOn ho with rfl | ho
      · left
        unfold fillOf
        split_ifs
        exact fill_order _ _ _
      · exact Or.inr (hopp ho)
    · rw [if_pos hv] at ho
      exact Or.inr ⟨r, o, ho, .refl o⟩

/-- Every resting order is what is left of a submitted one. -/
def RestsFrom (done : List Order) (R : Book) : Prop :=
  ∀ r, ∀ o ∈ R r, ∃ o' ∈ done, o.PartOf o'

theorem RestsFrom.applyOn {done : List Order} {R : Book} (h : RestsFrom done R) (b : OrderBook)
    (id : ℕ) (order : Order) : RestsFrom (done ++ [order]) (TradeX.applyOn b id R order).1 := by
  intro r o ho
  rcases partOf_of_mem_applyOn ho with hpart | ⟨r', o', ho', hpart⟩
  · exact ⟨order, by simp, hpart⟩
  · obtain ⟨o₁, ho₁, hpart₁⟩ := h r' o' ho'
    exact ⟨o₁, List.mem_append_left _ ho₁, hpart.trans hpart₁⟩

theorem RestsFrom.fresh {done : List Order} {R : Book} (h : RestsFrom done R) {order : Order}
    (hnew : ∀ o ∈ done, o.orderId ≠ order.orderId) :
    ∀ r, ∀ o ∈ R r, o.orderId ≠ order.orderId := by
  intro r o ho
  obtain ⟨o', ho', hpart⟩ := h r o ho
  exact hpart.orderId ▸ hnew o' ho'

/-- The next order is fresh if the ids are distinct. -/
theorem RestsFrom.fresh_of_nodup {done orders : List Order} {R : Book} (h : RestsFrom done R)
    {order : Order} (hnd : ((done ++ order :: orders).map Order.orderId).Nodup) :
    ∀ r, ∀ o ∈ R r, o.orderId ≠ order.orderId := by
  rw [List.map_append, List.nodup_append] at hnd
  exact h.fresh fun o ho => hnd.2.2 _ (List.mem_map_of_mem ho) _ List.mem_cons_self

/-- A relation between what has been submitted and the lists that every admissible call
preserves holds along every run whose calls are admissible, by `hA`. The ids must be
distinct. -/
theorem SimulatesUpTo.run {edges : Prop} {b₀ : OrderBook}
    {P : List Order → PriceTime.State → Prop} {A : EngineState → List Order → Prop}
    (hA : ∀ {st : EngineState} {a : PriceTime.State} {order : Order} {orders : List Order},
      SimulatesUpTo edges b₀ st a → A st (order :: orders) →
        AdmissibleUpTo edges st.book order ∧ ∀ st', st.step order = .ok st' → A st' orders)
    (hstep : ∀ {st : EngineState} {a : PriceTime.State} {done : List Order} {order : Order},
      SimulatesUpTo edges b₀ st a → RestsFrom done a.book → P done a →
      P (done ++ [order]) (applyStep st.book a order)) :
    ∀ (orders done : List Order) {st : EngineState} {a : PriceTime.State},
      SimulatesUpTo edges b₀ st a →
      RestsFrom done a.book → P done a → ((done ++ orders).map Order.orderId).Nodup →
      (∀ o ∈ orders, o.InRange) → A st orders →
      ∃ st' a', st.run orders = .ok st' ∧ SimulatesUpTo edges b₀ st' a' ∧
        RestsFrom (done ++ orders) a'.book ∧ P (done ++ orders) a'
  | [], done, st, a, h, hfrom, hP, _, _, _ => by
    rw [List.append_nil]
    exact ⟨st, a, rfl, h, hfrom, hP⟩
  | order :: orders, done, st, a, h, hfrom, hP, hnd, hr, hadm => by
    obtain ⟨hadm₀, hnext⟩ := hA h hadm
    obtain ⟨st₁, hst₁, hsim⟩ :=
      h.step (hr order List.mem_cons_self) hadm₀ (hfrom.fresh_of_nodup hnd)
    obtain ⟨st', a', hrun, hsim', hfrom', hP'⟩ :=
      SimulatesUpTo.run hA hstep orders (done ++ [order])
      hsim (hfrom.applyOn _ _ _) (hstep h hfrom hP) (by simpa using hnd)
      (fun o ho => hr o (List.mem_cons_of_mem _ ho)) (hnext st₁ hst₁)
    rw [List.append_assoc] at hfrom' hP'
    refine ⟨st', a', ?_, hsim', hfrom', hP'⟩
    rw [EngineState.run, List.foldlM_cons, hst₁]
    exact hrun

/-- One step away from the sentinels. -/
theorem Simulates.step {b₀ : OrderBook} {st : EngineState} {a : PriceTime.State} {order : Order}
    (h : Simulates b₀ st a) (hr : order.InRange) (hadm : Admissible st.book order)
    (hfresh : ∀ r, ∀ o' ∈ a.book r, o'.orderId ≠ order.orderId) :
    ∃ st', st.step order = .ok st' ∧ Simulates b₀ st' (applyStep st.book a order) := by
  obtain ⟨st', hst', hsim⟩ := (simulates_iff.1 h).step hr (admissible_iff.1 hadm) hfresh
  exact ⟨st', hst', simulates_iff.2 hsim⟩

/-- A run away from the sentinels. -/
theorem Simulates.run {b₀ : OrderBook} {P : List Order → PriceTime.State → Prop}
    {A : EngineState → List Order → Prop}
    (hA : ∀ {st : EngineState} {a : PriceTime.State} {order : Order} {orders : List Order},
      Simulates b₀ st a → A st (order :: orders) →
        Admissible st.book order ∧ ∀ st', st.step order = .ok st' → A st' orders)
    (hstep : ∀ {st : EngineState} {a : PriceTime.State} {done : List Order} {order : Order},
      Simulates b₀ st a → RestsFrom done a.book → P done a →
      P (done ++ [order]) (applyStep st.book a order))
    (orders done : List Order) {st : EngineState} {a : PriceTime.State} (h : Simulates b₀ st a)
    (hfrom : RestsFrom done a.book) (hP : P done a)
    (hnd : ((done ++ orders).map Order.orderId).Nodup)
    (hr : ∀ o ∈ orders, o.InRange) (hadm : A st orders) :
    ∃ st' a', st.run orders = .ok st' ∧ Simulates b₀ st' a' ∧
      RestsFrom (done ++ orders) a'.book ∧ P (done ++ orders) a' := by
  obtain ⟨st', a', hrun, hsim, hfrom', hP'⟩ := SimulatesUpTo.run (P := P) (A := A)
    (fun hs hadm => (hA (simulates_iff.2 hs) hadm).imp_left admissible_iff.1)
    (fun hs hfrom hP => hstep (simulates_iff.2 hs) hfrom hP) orders done (simulates_iff.1 h) hfrom
      hP
    hnd hr hadm
  exact ⟨st', a', hrun, simulates_iff.2 hsim, hfrom', hP'⟩

end TradeX
