import TradeX.BookCalls

/-!
# Totals under cancellation

`cancelOrder` does not change the totals (`cancel_keeps_total`), and `removeBuyOrder` takes
what is at the head of the level, which is a sell order if the sides cross.
`run_totals_exact` says when the totals are right.
-/

namespace TradeX

namespace SidedBook

variable {st st' : SidedBook} {s : OrderType} {o : Order} {i : ℕ}

/-! ## What is right -/

/-- The quantities that rest on side `r`, of a list of orders. -/
def unitsOn (sideOf : ℕ → OrderType) (l : List Order) (r : OrderType) : ℕ :=
  ((l.filter fun o => sideOf o.orderId = r).map Order.quantity).sum

/-- The totals are the sums of the resting quantities. -/
def TotalsExact (st : SidedBook) : Prop :=
  ∀ r, st.book.getTotalQty r = ((st.resting r).map Order.quantity).sum

/-- Ids are fresh, and orders are removed where their side rests. -/
def Fresh (st : SidedBook) : BookOp → Prop
  | .add _ order => (∀ o ∈ st.book.orders, o.orderId ≠ order.orderId) ∧ order.InRange
  | .remove s price => ∃ o ∈ st.resting s, o.price = price
  | _ => True

/-- No order with units is cancelled, or removed for the other side. -/
def Settles (st : SidedBook) : BookOp → Prop
  | .remove s price => ∀ i ∈ (st.book.levelOf price).toOption,
    ∀ o ∈ (st.book.queue i).head?, o.quantity = 0 ∨ st.sideOf o.orderId = s
  | .cancel id => ∀ o ∈ st.book.orders, o.orderId = id → o.quantity = 0
  | _ => True

instance (st : SidedBook) : ∀ op, Decidable (st.Fresh op)
  | .add _ _ => inferInstanceAs (Decidable (_ ∧ _))
  | .remove _ _ => inferInstanceAs (Decidable (∃ o ∈ _, _))
  | .cancel _ => inferInstanceAs (Decidable True)
  | .best _ => inferInstanceAs (Decidable True)

instance (st : SidedBook) : ∀ op, Decidable (st.Settles op)
  | .add _ _ => inferInstanceAs (Decidable True)
  | .remove _ _ => inferInstanceAs (Decidable (∀ i ∈ _, ∀ o ∈ _, _))
  | .cancel _ => inferInstanceAs (Decidable (∀ o ∈ _, _ → _))
  | .best _ => inferInstanceAs (Decidable True)

theorem unitsOn_perm {sideOf : ℕ → OrderType} {l l' : List Order} (h : l.Perm l')
    (r : OrderType) : unitsOn sideOf l r = unitsOn sideOf l' r :=
  ((h.filter _).map _).sum_nat

theorem unitsOn_cons (sideOf : ℕ → OrderType) (o : Order) (l : List Order) (r : OrderType) :
    unitsOn sideOf (o :: l) r =
      (if sideOf o.orderId = r then o.quantity else 0) + unitsOn sideOf l r := by
  rw [unitsOn, List.filter_cons]
  split_ifs with h <;> simp_all [unitsOn]

theorem unitsOn_congr {sideOf sideOf' : ℕ → OrderType} {l : List Order}
    (h : ∀ o ∈ l, sideOf o.orderId = sideOf' o.orderId) (r : OrderType) :
    unitsOn sideOf l r = unitsOn sideOf' l r := by
  rw [unitsOn, unitsOn, List.filter_congr fun o ho => by rw [h o ho]]

/-- A change of one level, seen in the list of all orders. -/
theorem orders_of_level {b b' : OrderBook} (hn : b'.numPriceLevels = b.numPriceLevels)
    (hi : i < b.numPriceLevels) (hne : ∀ j, j ≠ i → b'.queue j = b.queue j) :
    ∃ rest, b.orders.Perm (b.queue i ++ rest) ∧ b'.orders.Perm (b'.queue i ++ rest) := by
  obtain ⟨pre, post, hrange⟩ := List.append_of_mem (List.mem_range.2 hi)
  have hnodup := List.nodup_range (n := b.numPriceLevels)
  rw [hrange, List.nodup_middle, List.nodup_cons, List.mem_append, not_or] at hnodup
  have hsplit : ∀ {c : OrderBook}, c.numPriceLevels = b.numPriceLevels →
      c.orders.Perm (c.queue i ++ (pre.flatMap c.queue ++ post.flatMap c.queue)) := by
    intro c hc
    rw [OrderBook.orders, hc, hrange, List.flatMap_append, List.flatMap_cons, ← List.append_assoc,
      ← List.append_assoc]
    exact List.perm_append_comm.append_right _
  have hsame : ∀ {l : List ℕ}, i ∉ l → l.flatMap b'.queue = l.flatMap b.queue := fun hl =>
    List.flatMap_congr fun j hj => hne j fun e => hl (e ▸ hj)
  refine ⟨_, hsplit rfl, ?_⟩
  rw [← hsame hnodup.1.1, ← hsame hnodup.1.2]
  exact hsplit hn

theorem Added.orders_perm (h : Added st st' s o i) :
    st'.book.orders.Perm (o :: st.book.orders) := by
  obtain ⟨rest, hrest, hrest'⟩ := orders_of_level h.frame.levels h.level
    fun j hj => (h.queue j).trans (if_neg hj)
  rw [h.queue, if_pos rfl, List.append_assoc] at hrest'
  exact (hrest'.trans List.perm_middle).trans (hrest.symm.cons o)

theorem Taken.orders_perm {charged : Option OrderType} (hwf : st.book.WF)
    (h : Taken st st' i o charged) : st.book.orders.Perm (o :: st'.book.orders) := by
  obtain ⟨before, after, hq, hqueue⟩ := h.queue
  have hi : i < st.book.numPriceLevels := (hwf.levelOf_eq (o := o) (by simp [hq])).1
  obtain ⟨rest, hrest, hrest'⟩ := orders_of_level h.frame.levels hi
    fun j hj => (hqueue j).trans (if_neg hj)
  rw [hqueue, if_pos rfl] at hrest'
  rw [hq, List.append_assoc, List.cons_append] at hrest
  refine hrest.trans (List.perm_middle.trans (List.Perm.cons o ?_))
  rw [← List.append_assoc]
  exact hrest'.symm

/-- What the calls need of a book to return, and the totals not to overflow. -/
structure Shaped (st : SidedBook) : Prop where
  wf : st.book.WF
  sentinel : ∀ s, (st.book.side s).defaultBestPrice ∈ (st.book.side s).nextPrice
  entry : ∀ s, ∀ p ∈ (st.book.side s).nextPrice, p ≠ (st.book.side s).defaultBestPrice →
    st.book.HasLevel p
  inRange : ∀ o ∈ st.book.orders, o.InRange
  used : st.book.pool.used = st.book.orders.length

theorem Shaped.of_added (h : Shaped st) (ha : Added st st' s o i) (ho : o.InRange) :
    Shaped st' := by
  have hheap : ∀ r p, p ∈ (st'.book.side r).nextPrice → p ∈ (st.book.side r).nextPrice ∨
      p = o.price := by
    intro r p hp
    rw [ha.side] at hp
    rcases eq_or_ne r s with rfl | hr
    · rw [Function.update_self] at hp
      simp only at hp
      split_ifs at hp
      · exact ((List.mem_orderedInsert _).1 hp).symm
      · exact Or.inl hp
    · rw [Function.update_of_ne hr] at hp
      exact Or.inl hp
  refine ⟨ha.wf, fun r => ?_, fun r p hp hne => ?_, fun o' ho' => ?_, ?_⟩
  · rw [ha.frame.sentinel, ha.side]
    rcases eq_or_ne r s with rfl | hr
    · rw [Function.update_self]
      simp only
      split_ifs
      · exact (List.mem_orderedInsert _).2 (Or.inr (h.sentinel r))
      · exact h.sentinel r
    · rw [Function.update_of_ne hr]
      exact h.sentinel r
  · rw [ha.frame.sentinel] at hne
    rcases hheap r p hp with hp | rfl
    · exact ha.frame.hasLevel (h.entry r p hp hne)
    · exact ha.frame.hasLevel ⟨i, ha.level, ha.index⟩
  · rcases List.mem_cons.1 (ha.orders_perm.mem_iff.1 ho') with rfl | ho'
    · exact ho
    · exact h.inRange o' ho'
  · rw [ha.used, h.used, ha.orders_perm.length_eq, List.length_cons]

theorem Shaped.of_taken (h : Shaped st) {charged : Option OrderType}
    (ht : Taken st st' i o charged) : Shaped st' := by
  have hperm := ht.orders_perm h.wf
  refine ⟨ht.wf, fun r => ?_, fun r p hp hne => ?_, fun o' ho' => ?_, ?_⟩
  · rw [ht.frame.sentinel, ht.heap]
    exact h.sentinel r
  · rw [ht.heap] at hp
    rw [ht.frame.sentinel] at hne
    exact ht.frame.hasLevel (h.entry r p hp hne)
  · exact h.inRange o' (hperm.mem_iff.2 (List.mem_cons_of_mem _ ho'))
  · have hlen := hperm.length_eq
    have hused := ht.used
    rw [h.used, hlen, List.length_cons] at hused
    omega

theorem Shaped.units_lt (h : Shaped st) (sideOf : ℕ → OrderType) (r : OrderType) :
    unitsOn sideOf st.book.orders r < 2 ^ 63 := by
  have hle := sum_quantity_le (st.book.orders.filter fun o => sideOf o.orderId = r)
    fun o ho => h.inRange o (List.mem_of_mem_filter ho)
  have hlen := List.length_filter_le (fun o => decide (sideOf o.orderId = r)) st.book.orders
  have hused := h.wf.used_le
  have hcap : st.book.pool.capacity < 2 ^ 31 := by
    obtain ⟨level, free, hl⟩ := h.wf
    exact hl.capacity_lt
  rw [h.used] at hused
  rw [unitsOn]
  omega

/-- Adding an order adds its quantity to the right total. -/
theorem Shaped.exact_of_added (h : Shaped st) (ha : Added st st' s o i)
    (hfresh : st.Fresh (.add s o)) (hexact : TotalsExact st) : TotalsExact st' := by
  have hsame : ∀ r, unitsOn st'.sideOf st.book.orders r = unitsOn st.sideOf st.book.orders r :=
    unitsOn_congr fun o' ho' => by rw [ha.sideOf, Function.update_of_ne (hfresh.1 o' ho')]
  intro r
  have hunits : ((st'.resting r).map Order.quantity).sum =
      (if s = r then o.quantity else 0) + unitsOn st.sideOf st.book.orders r := by
    change unitsOn st'.sideOf st'.book.orders r = _
    rw [unitsOn_perm ha.orders_perm, unitsOn_cons, hsame, ha.sideOf, Function.update_self]
  have hold : st.book.getTotalQty r = unitsOn st.sideOf st.book.orders r := hexact r
  have hlt := h.units_lt st.sideOf r
  have hq : o.quantity < 2 ^ 32 := hfresh.2
  rw [hunits, OrderBook.getTotalQty, ha.side]
  rw [OrderBook.getTotalQty] at hold
  rcases eq_or_ne r s with rfl | hr
  · rw [Function.update_self, if_pos rfl, Nat.add_comm, ← hold]
    exact add64_eq (by omega)
  · rw [Function.update_of_ne hr, if_neg hr.symm, hold, Nat.zero_add]

/-- Taking an order out leaves the totals right iff it is taken off the total of its side. -/
theorem Shaped.exact_of_taken (h : Shaped st) {charged : Option OrderType}
    (ht : Taken st st' i o charged) (hexact : TotalsExact st) :
    TotalsExact st' ↔ o.quantity = 0 ∨ charged = some (st.sideOf o.orderId) := by
  have hunits : ∀ r, unitsOn st.sideOf st.book.orders r =
      (if st.sideOf o.orderId = r then o.quantity else 0) +
        ((st'.resting r).map Order.quantity).sum := by
    intro r
    rw [unitsOn_perm (ht.orders_perm h.wf), unitsOn_cons, ← ht.sideOf]
    rfl
  have hold : ∀ r, (st.book.side r).totalQty = unitsOn st.sideOf st.book.orders r := hexact
  have hlt : ∀ r, unitsOn st.sideOf st.book.orders r < 2 ^ 63 := h.units_lt st.sideOf
  constructor
  · -- else the total of the order's side has stayed
    intro hexact'
    rcases eq_or_ne charged (some (st.sideOf o.orderId)) with hc | hc
    · exact Or.inr hc
    · have hside := hexact' (st.sideOf o.orderId)
      rw [OrderBook.getTotalQty, ht.total, if_neg hc, hold, hunits, if_pos rfl] at hside
      exact Or.inl (by omega)
  · intro hc r
    rw [OrderBook.getTotalQty, ht.total, hold, hunits r]
    have hltr := hlt r
    rw [hunits r] at hltr
    rcases hc with hzero | rfl
    · have hnone : (if st.sideOf o.orderId = r then o.quantity else 0) = 0 := by
        split_ifs
        · exact hzero
        · rfl
      rw [hnone, Nat.zero_add, hzero]
      split_ifs
      · have hsub := sub64_add ((st'.resting r).map Order.quantity).sum 0 (by omega)
        rwa [Nat.zero_add] at hsub
      · rfl
    · rcases eq_or_ne (st.sideOf o.orderId) r with rfl | hr
      · rw [if_pos rfl, if_pos rfl]
        exact sub64_add _ _ (by omega)
      · rw [if_neg (fun e => hr (Option.some.inj e)), if_neg hr, Nat.zero_add]

theorem Shaped.of_cleaned (h : Shaped st) {b' : OrderBook} {p : ℕ} {dropped tl : List ℕ}
    (hc : OrderBook.Cleaned st.book b' s p dropped tl) :
    Shaped { st with book := b' } ∧ (TotalsExact { st with book := b' } ↔ TotalsExact st) := by
  have horders : b'.orders = st.book.orders := by
    rw [OrderBook.orders, OrderBook.orders, hc.frame.levels]
    exact List.flatMap_congr fun i _ => hc.queue i
  have htotal : ∀ r, b'.getTotalQty r = st.book.getTotalQty r := by
    intro r
    rw [OrderBook.getTotalQty, hc.side]
    rcases eq_or_ne r s with rfl | hr
    · rw [Function.update_self]
      rfl
    · rw [Function.update_of_ne hr]
      rfl
  have hheap : ∀ r q, q ∈ (b'.side r).nextPrice → q ∈ (st.book.side r).nextPrice := by
    intro r q hq
    rw [hc.side] at hq
    rcases eq_or_ne r s with rfl | hr
    · rw [Function.update_self] at hq
      exact hc.heap ▸ List.mem_append_right _ hq
    · rwa [Function.update_of_ne hr] at hq
  refine ⟨⟨hc.wf, fun r => ?_, fun r q hq hne => ?_, horders ▸ h.inRange, ?_⟩, ?_⟩
  · simp only [hc.side]
    rcases eq_or_ne r s with rfl | hr
    · rw [Function.update_self]
      refine (List.mem_append.1 (hc.heap ▸ h.sentinel r)).resolve_left fun hd => ?_
      exact (hc.dropped _ hd).1 rfl
    · rw [Function.update_of_ne hr]
      exact h.sentinel r
  · simp only [hc.frame.sentinel] at hne
    exact hc.frame.hasLevel (h.entry r q (hheap r q hq) hne)
  · simp only [horders, hc.used, h.used]
  · simp only [TotalsExact, resting, htotal, horders]

theorem Shaped.step (h : Shaped st) {op : BookOp} (hfresh : st.Fresh op) :
    ∃ st', st.step op = .ok st' ∧ Shaped st' ∧
      (TotalsExact st → (TotalsExact st' ↔ st.Settles op)) := by
  cases op with
  | add s o =>
    rcases step_add h.wf hfresh.1 with hstep | ⟨st', i, hstep, ha⟩
    · exact ⟨st, hstep, h, fun hexact => iff_of_true hexact trivial⟩
    · exact ⟨st', hstep, h.of_added ha hfresh.2,
        fun hexact => iff_of_true (h.exact_of_added ha hfresh hexact) trivial⟩
  | remove s price =>
    obtain ⟨o, ho, rfl⟩ := hfresh
    obtain ⟨⟨i, hi⟩, -⟩ := (mem_resting h.wf).1 ho
    obtain ⟨hlt, hidx⟩ := h.wf.levelOf_eq hi
    obtain ⟨o', l, hq⟩ := List.exists_cons_of_ne_nil (List.ne_nil_of_mem hi)
    obtain ⟨st', hstep, ht⟩ := step_remove (s := s) h.wf hidx hlt hq
    refine ⟨st', hstep, h.of_taken ht, fun hexact => (h.exact_of_taken ht hexact).trans ?_⟩
    rw [Settles, OrderBook.levelOf_ok hidx hlt]
    simp [Except.toOption, hq, eq_comm]
  | cancel id =>
    rcases step_cancel h.wf id with ⟨hunknown, hstep⟩ | ⟨st', i, o, rfl, hstep, ht⟩
    · exact ⟨st, hstep, h, fun hexact => iff_of_true hexact fun o ho hid =>
        absurd hid (hunknown o ho)⟩
    · refine ⟨st', hstep, h.of_taken ht, fun hexact => (h.exact_of_taken ht hexact).trans ?_⟩
      have hmem : o ∈ st.book.orders := (ht.orders_perm h.wf).mem_iff.2 List.mem_cons_self
      simp only [reduceCtorEq, or_false, Settles]
      constructor
      · intro hzero o' ho' hid
        rw [h.wf.eq_of_orderId ho' hmem hid]
        exact hzero
      · intro hzero
        exact hzero o hmem rfl
  | best s =>
    obtain ⟨p, b', dropped, tl, hbest, hc⟩ :=
      h.wf.bestprice_spec _ rfl (h.sentinel s) (h.entry s)
    obtain ⟨hshaped, hexact⟩ := h.of_cleaned hc
    refine ⟨{ st with book := b' }, ?_, hshaped, fun hst => iff_of_true (hexact.2 hst) trivial⟩
    simp only [SidedBook.step, hbest, ok_bind]

theorem shaped_start (mem : Storage) {poolSize : ℕ} (lower upper : ℕ) (h0 : 1 ≤ poolSize)
    (h1 : poolSize < 2 ^ 31) : Shaped (start mem poolSize lower upper) := by
  have horders : (start mem poolSize lower upper).book.orders = [] :=
    List.flatMap_eq_nil_iff.2 fun _ _ => rfl
  refine ⟨⟨_, _, OrderBook.new_linked mem lower upper h0 h1⟩,
    fun s => List.mem_singleton.2 rfl,
    fun s p hp hne => absurd (List.mem_singleton.1 hp) hne, ?_, ?_⟩
  · rw [horders]
    simp
  · rw [horders]
    rfl

/-- A run returns, and its totals are right in every state iff its steps meet `Settles`. -/
theorem run_totals_exact (nodes : ℕ → OrderNode) {poolSize : ℕ} (lower upper : ℕ)
    {ops : List BookOp} (h0 : 1 ≤ poolSize) (h1 : poolSize < 2 ^ 31)
    (hfresh : Runs.Always (fun st op st' => step st op = .ok st') Fresh
      (start ⟨nodes, fun _ => 0⟩ poolSize lower upper) ops) :
    (∃ st, (start ⟨nodes, fun _ => 0⟩ poolSize lower upper).run ops = .ok st) ∧
      ((∀ pre post st, ops = pre ++ post →
        (start ⟨nodes, fun _ => 0⟩ poolSize lower upper).run pre = .ok st →
        TotalsExact st) ↔
      Runs.Always (fun st op st' => step st op = .ok st') Settles
        (start ⟨nodes, fun _ => 0⟩ poolSize lower upper) ops) := by
  have hstart := shaped_start ⟨nodes, fun _ => 0⟩ lower upper h0 h1
  have hzero : TotalsExact (start ⟨nodes, fun _ => 0⟩ poolSize lower upper) := by
    intro r
    have horders : (start ⟨nodes, fun _ => 0⟩ poolSize lower upper).book.orders = [] :=
      List.flatMap_eq_nil_iff.2 fun _ _ => rfl
    rw [resting, horders]
    rfl
  have hmove : ∀ {st op}, Shaped st → st.Fresh op → ∃ st', st.step op = .ok st' ∧
      Shaped st' := by
    intro st op h hop
    obtain ⟨st', hst', h', -⟩ := h.step hop
    exact ⟨st', hst', h'⟩
  have hiff : ∀ {st op st'}, Shaped st → st.Fresh op → st.step op = .ok st' → Shaped st' ∧
      (TotalsExact st → (TotalsExact st' ↔ st.Settles op)) := by
    intro st op st' h hop hst'
    obtain ⟨st₁, hst₁, h₁⟩ := h.step hop
    exact Except.ok.inj (hst₁.symm.trans hst') ▸ h₁
  obtain ⟨st, hrun, -⟩ := Runs.Always.exists_steps hmove hstart hfresh
  refine ⟨⟨st, steps_iff_run.1 hrun⟩, ?_⟩
  simp only [← steps_iff_run]
  exact Runs.always_iff (R := fun st op st' => step st op = .ok st') (I := Shaped) (L := Fresh)
    (P := Settles) (fun h hop hst' => (hiff h hop hst').1)
    (fun h hop hst' => (hiff h hop hst').2)
    (fun h hop => Or.inr ((hmove h hop).imp fun _ hst' => hst'.1)) hstart hzero hfresh

/-- A cancel of an unknown id, and a removal from a level of one side. -/
def settledOps : List BookOp :=
  [.add .buy (unitOrder 1 .buy 102), .add .sell (unitOrder 2 .sell 103), .cancel 7,
    .remove .buy 102]

theorem run_totals_exact_settledOps : (∃ st, sampleStart.run settledOps = .ok st) ∧
    ∀ pre post st, settledOps = pre ++ post → sampleStart.run pre = .ok st →
      TotalsExact st := by
  have hfresh : Runs.Always (fun st op st' => step st op = .ok st') Fresh sampleStart settledOps :=
    Runs.always_of_allowed_ok (by decide +kernel)
  obtain ⟨hrun, hexact⟩ :=
    run_totals_exact (fun _ => ⟨⟨0, .market, 0, 0, 0, .buy, 0, 0, 0⟩, 0, 0⟩)
    95 105 (show 1 ≤ 4 by decide) (by decide) hfresh
  exact ⟨hrun, hexact.2 (Runs.always_of_allowed_ok (by decide +kernel))⟩

/-- The total of the buy side is 1 after the only buy order has been cancelled. -/
theorem cancel_keeps_total : ∃ st,
    Runs.Always (fun st op st' => step st op = .ok st') Fresh sampleStart
      [.add .buy (unitOrder 1 .buy 100), .cancel 1] ∧
    sampleStart.run [.add .buy (unitOrder 1 .buy 100), .cancel 1] = .ok st ∧
    st.book.getTotalQty .buy = 1 ∧ st.resting .buy = [] ∧ ¬ TotalsExact st := by
  have hview : (sampleStart.run [.add .buy (unitOrder 1 .buy 100), .cancel 1]).map
      (fun st => (st.book.getTotalQty .buy, st.resting .buy)) = .ok (1, []) := by
    decide +kernel
  obtain ⟨st, hrun, hst⟩ := map_eq_ok.1 hview
  obtain ⟨htotal, hresting⟩ := Prod.mk.inj hst
  refine ⟨st, Runs.always_of_allowed_ok (by decide +kernel), hrun, htotal, hresting,
    fun hexact => ?_⟩
  have hbuy := hexact .buy
  rw [htotal, hresting] at hbuy
  exact absurd hbuy (by decide)

end SidedBook

end TradeX
