import TradeX.EngineRuns

/-!
# Conservation

Along a run the quantity of every submitted order is what it traded, what rests of it and
what was discarded (`run_conserves`). An order that has not been submitted yet has no units,
and the calls after its own neither make nor lose any (`run_units`), so the account is
settled by the order's own call (`process_units`).
-/

namespace TradeX

open PriceTime

namespace PriceTime

theorem traded_append (i : ℕ) (l l' : List Execution) :
    traded i (l ++ l') = traded i l + traded i l' := by
  simp only [traded, incomingTraded, restingTraded, List.map_append, List.sum_append]
  omega

/-- The units of order `i` that a state has traded or still holds. -/
def State.account (i : ℕ) (st : State) : ℕ :=
  traded i st.published + st.book.units i

variable (capacity lower upper : ℕ)

/-- One incoming order adds its units to its own account, less what is discarded. -/
theorem State.account_step (i : ℕ) (st : State) (order : Order) :
    ∃ d, (st.step capacity lower upper order).account i + d =
        st.account i + unitsOf (· = i) [order] ∧
      (d ≠ 0 → order.orderId = i ∧ (order.executionType = .market ∨
        ¬(lower ≤ order.price ∧ order.price ≤ upper) ∨
        capacity ≤ (st.step capacity lower upper order).book.size)) := by
  obtain ⟨d, hd, hwhy⟩ := process_units capacity lower upper i st.tradeId st.book order
  refine ⟨d, ?_, hwhy⟩
  simp only [State.account, State.step, traded_append]
  omega

/-- Other orders leave an account as it is. -/
theorem State.account_run {i : ℕ} : ∀ (orders : List Order) (st : State),
    (∀ o ∈ orders, o.orderId ≠ i) → (st.run capacity lower upper orders).account i =
    st.account i
  | [], _, _ => rfl
  | order :: orders, st, h => by
    have hne := h order List.mem_cons_self
    obtain ⟨d, hd, hwhy⟩ := st.account_step capacity lower upper i order
    have hd0 : d = 0 := by
      by_contra h0
      exact hne (hwhy h0).1
    have hu : unitsOf (· = i) [order] = 0 := by
      by_contra h0
      exact hne (unitsOf_singleton_ne_zero h0).1
    rw [State.run, List.foldl_cons]
    exact (State.account_run orders _ fun o ho => h o (List.mem_cons_of_mem _ ho)).trans (by omega)

/-- A submitted order has traded its quantity or it still rests, less what its own call
discarded. -/
theorem State.account_of_submitted {pre post : List Order} {o : Order}
    (hids : ((pre ++ o :: post).map Order.orderId).Nodup) :
    ∃ d, (State.init.run capacity lower upper (pre ++ o :: post)).account o.orderId + d =
        o.quantity ∧
      (d ≠ 0 → o.executionType = .market ∨ ¬(lower ≤ o.price ∧ o.price ≤ upper) ∨
        capacity ≤ (State.init.run capacity lower upper (pre ++ [o])).book.size) := by
  rw [List.map_append, List.map_cons, List.nodup_append, List.nodup_cons] at hids
  obtain ⟨-, ⟨hpost, -⟩, hpre⟩ := hids
  have hbefore := State.account_run capacity lower upper pre State.init
    fun x hx => hpre _ (List.mem_map_of_mem hx) o.orderId List.mem_cons_self
  have hafter := State.account_run capacity lower upper post
    (State.init.run capacity lower upper (pre ++ [o])) (i := o.orderId)
    fun x hx he => hpost (he ▸ List.mem_map_of_mem hx)
  obtain ⟨d, hd, hwhy⟩ := (State.init.run capacity lower upper pre).account_step capacity lower
    upper o.orderId o
  have hsplit : State.init.run capacity lower upper (pre ++ o :: post) =
      (State.init.run capacity lower upper (pre ++ [o])).run capacity lower upper post := by
    simp [State.run]
  have hinit : State.init.account o.orderId = 0 := by
    simp [State.account, State.init, traded, incomingTraded, restingTraded, Book.units, unitsOf]
  have hself : unitsOf (· = o.orderId) [o] = o.quantity := by simp [unitsOf]
  rw [← State.run_append] at hd hwhy
  exact ⟨d, by rw [hsplit]; omega, fun h0 => (hwhy h0).2⟩

end PriceTime

/-! ## Runs of the engine -/

theorem Represents.unitsOf_orders {b : OrderBook} {R : Book} (h : Represents b R) (i : ℕ) :
    unitsOf (· = i) b.orders = R.units i := by
  have hperm : b.orders.Perm (b.ordersOf .buy ++ b.ordersOf .sell) := by
    have hsell : b.ordersOf .sell = b.orders.filter fun o => !decide (o.type = .buy) := by
      refine List.filter_congr fun o _ => ?_
      cases o.type <;> rfl
    rw [hsell]
    exact (List.filter_append_perm (fun o => decide (o.type = .buy)) b.orders).symm
  have hlists := hperm.trans ((h.ordersOf_perm .buy).append (h.ordersOf_perm .sell))
  rw [unitsOf, (hlists.map _).sum_nat, List.map_append, List.sum_append]
  rfl

/-- Units are conserved and limits respected. In every run every execution is sound, and
the quantity of every order `o` is what it traded, what rests of it, and a part `d` that was
discarded, which is zero unless `o` is a market order, its price is outside the band, or the
pool has no free node at the end of `o`'s call. -/
theorem run_conserves {poolSize lower upper : ℕ} {orders : List Order} (nodes : ℕ → OrderNode)
    (hb : Band poolSize lower upper) (ho : Orderly orders) :
    ∃ st, (EngineState.init nodes poolSize lower upper).run orders = .ok st ∧
      (∀ e ∈ st.published, e.Sound orders) ∧
      ∀ pre o post, orders = pre ++ o :: post →
        ∃ d st₁, (EngineState.init nodes poolSize lower upper).run (pre ++ [o]) = .ok st₁ ∧
          o.quantity = traded o.orderId st.published + unitsOf (· = o.orderId) st.book.orders +
            d ∧
          (d ≠ 0 → o.executionType = .market ∨ ¬(lower ≤ o.price ∧ o.price ≤ upper) ∨
            st₁.book.pool.freeHead = nullIdx) := by
  obtain ⟨st, hrun, hsim, hsound⟩ := hb.run_spec ho nodes
  refine ⟨st, hrun, hsound, ?_⟩
  rintro pre o post rfl
  have ho₁ : Orderly (pre ++ [o]) := by
    have hsub : (pre ++ [o]).Sublist (pre ++ o :: post) :=
      (List.Sublist.refl pre).append (by simp)
    exact ho.sublist hsub
  obtain ⟨st₁, hrun₁, hsim₁, -⟩ := hb.run_spec ho₁ nodes
  obtain ⟨d, hd, hwhy⟩ := State.account_of_submitted poolSize lower upper ho.ids
  refine ⟨d, st₁, hrun₁, ?_, fun h0 => (hwhy h0).imp_right (Or.imp_right fun hfull => ?_)⟩
  · rw [hsim.published, hsim.represents.unitsOf_orders, ← hd]
    rfl
  · have hcap : st₁.book.pool.capacity = poolSize := hsim₁.frame.capacity
    have hle := hsim₁.represents.wf.used_le
    have hused := hsim₁.represents.used
    exact hsim₁.represents.wf.freeHead_eq_nullIdx (by omega)

theorem run_sweep_conserves :
    Band 4 100 105 ∧ Orderly sweep ∧
    ∃ st, (EngineState.init zeroNodes 4 100 105).run sweep = .ok st ∧
      (∀ e ∈ st.published, e.Sound sweep) ∧
      traded 1 st.published + unitsOf (· = 1) st.book.orders ≤ 5 := by
  obtain ⟨st, hrun, hsound, hcons⟩ := run_conserves zeroNodes band_sweep orderly_sweep
  obtain ⟨d, -, -, hd, -⟩ := hcons [] (limitOrder 1 .sell 101 5) _ rfl
  exact ⟨band_sweep, orderly_sweep, st, hrun, hsound, Nat.le.intro hd.symm⟩

end TradeX
