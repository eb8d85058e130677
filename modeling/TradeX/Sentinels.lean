import TradeX.EngineRuns
import TradeX.BookCalls

/-!
# The sentinels at the ends of the range

The sentinel of a heap is the price next to the band. At the ends of the 64-bit range there is
none : with a lower limit of 0 the sentinel of the buy side is 0, and with an upper limit of
`2 ^ 64 - 1` that of the sell side is `2 ^ 64 - 1`, and orders rest at these prices. `bestbuyprice`
stops at its sentinel without a look at the level, so that the level of price 0 keeps its flag when
its buy orders are gone. A sell order that comes to rest there then (`Hides`) is not pushed, and
`bestsellprice` does not see it (`sell_at_zero_hidden`). In a run without such calls both best
prices are exact (`run_best_seen`).
-/

namespace TradeX

/-- An order of side `s` rests at price `p`. -/
def OrderBook.RestsAt (b : OrderBook) (s : OrderType) (p : ℕ) : Prop :=
  ∃ i, ∃ o ∈ b.queue i, o.type = s ∧ o.price = p

/-- If a buy order rests, `bestbuyprice` is the highest price at which one does, and if a sell
order rests, `bestsellprice` is the lowest. -/
def BestSeen (b : OrderBook) : Prop :=
  ((∃ p, b.RestsAt .buy p) → ∃ p b', b.bestbuyprice = .ok (p, b') ∧ b.RestsAt .buy p ∧
      ∀ q, b.RestsAt .buy q → q ≤ p) ∧
    ((∃ p, b.RestsAt .sell p) → ∃ p b', b.bestsellprice = .ok (p, b') ∧
      b.RestsAt .sell p ∧ ∀ q, b.RestsAt .sell q → p ≤ q)

namespace RepresentsUpTo

variable {edges : Prop} {b : OrderBook} {R : PriceTime.Book} {s : OrderType}

theorem restsAt_iff (h : RepresentsUpTo edges b R) {p : ℕ} :
    b.RestsAt s p ↔ ∃ o ∈ R s, o.price = p := by
  constructor
  · rintro ⟨i, o, ho, htype, hp⟩
    obtain ⟨r, hr, -⟩ := h.mem_queue.1 ho
    obtain rfl : r = s := (h.resting r o hr).1.symm.trans htype
    exact ⟨o, hr, hp⟩
  · rintro ⟨o, ho, hp⟩
    obtain ⟨htype, -, -, hfit⟩ := h.resting s o ho
    exact ⟨_, o, h.mem_queue.2 ⟨s, ho, (Nat.add_sub_cancel' hfit.valid.1).symm⟩, htype, hp⟩

/-- The best price is that of the first order. -/
theorem bestprice_of_restsAt (h : RepresentsUpTo edges b R) (hrest : ∃ p, b.RestsAt s p) :
    ∃ p b', b.bestprice s = .ok (p, b') ∧ b.RestsAt s p ∧ ∀ q, b.RestsAt s q →
      better s p q := by
  obtain ⟨p, hp⟩ := hrest
  obtain ⟨o, ho, -⟩ := h.restsAt_iff.1 hp
  obtain ⟨first, l, hR⟩ := List.exists_cons_of_ne_nil (List.ne_nil_of_mem ho)
  refine ⟨first.price, b, ?_, h.restsAt_iff.2 ⟨first, hR ▸ List.mem_cons_self, rfl⟩,
    fun q hq => ?_⟩
  · rw [h.bestprice_eq, hR]
    rfl
  · obtain ⟨o', ho', rfl⟩ := h.restsAt_iff.1 hq
    exact h.better_of_mem hR ho'

theorem bestSeen (h : RepresentsUpTo edges b R) : BestSeen b :=
  ⟨h.bestprice_of_restsAt, h.bestprice_of_restsAt⟩

end RepresentsUpTo

section Run

variable {poolSize lower upper : ℕ} {orders : List Order}

/-- A fresh book represents two empty lists, whatever its sentinels are. -/
theorem simulatesUpTo_init (nodes : ℕ → OrderNode) (lower upper : ℕ) (h0 : 1 ≤ poolSize)
    (h1 : poolSize < 2 ^ 31) :
    SimulatesUpTo True (OrderBook.new ⟨nodes, fun _ => 0⟩ poolSize lower upper)
      (EngineState.init nodes poolSize lower upper) PriceTime.State.init := by
  obtain ⟨hframe, hrep, hid, hpub⟩ := simulates_init nodes lower upper h0 h1
  exact ⟨hframe, hrep.upTo True, hid, hpub⟩

/-- In a run that hides no order both best prices are exact. -/
theorem run_best_seen (nodes : ℕ → OrderNode) (h0 : 1 ≤ poolSize) (h1 : poolSize < 2 ^ 31)
    (hle : lower ≤ upper) (hupper : upper ≤ 2 ^ 64 - 1) (hwidth : upper - lower < 2 ^ 31)
    (ho : Orderly orders)
    (hseen : Runs.Always (fun st order st' => EngineState.step st order = .ok st')
      (fun st order => ¬Hides st.book order) (EngineState.init nodes poolSize lower upper)
      orders) :
    ∃ st, (EngineState.init nodes poolSize lower upper).run orders = .ok st ∧
      BestSeen st.book := by
  obtain ⟨st, a, hrun, hsim, -, -⟩ := SimulatesUpTo.run (P := fun _ _ => True)
    (A := fun st orders => (∀ o ∈ orders, 0 < o.quantity) ∧
      Runs.Always (fun st order st' => EngineState.step st order = .ok st')
        (fun st order => ¬Hides st.book order) st orders)
    (fun {st a order orders} h hA => by
      have hpos := hA.1 order List.mem_cons_self
      refine ⟨⟨fun _ hv _ => ⟨fitsUpTo_new hle (by omega) hwidth h.frame hv _,
        fun hz => by omega⟩,
        fun _ => hA.2.head⟩, fun st' hst' => ⟨fun o ho => hA.1 o (List.mem_cons_of_mem _ ho),
        hA.2.tail hst'⟩⟩)
    (fun _ _ _ => trivial) orders [] (simulatesUpTo_init nodes lower upper h0 h1)
    (fun _ o ho => absurd ho List.not_mem_nil) trivial (by simpa using ho.ids) ho.inRange
    ⟨ho.positive, hseen⟩
  exact ⟨st, hrun, hsim.represents.bestSeen⟩

end Run

/-! ## Runs at price 0 -/

/-- An engine with the band from 0 to 10, in storage that is zero. -/
def zeroBand : EngineState :=
  EngineState.init (fun _ => ⟨⟨0, .market, 0, 0, 0, .buy, 0, 0, 0⟩, 0, 0⟩) 4 0 10

open SidedBook (unitOrder)

/-- Buy orders at 0 that are filled, and orders that rest after them. -/
theorem run_best_seen_at_zero : ∃ st,
    zeroBand.run [unitOrder 1 .buy 0, unitOrder 2 .sell 0, unitOrder 3 .sell 5,
      unitOrder 4 .buy 0] = .ok st ∧ BestSeen st.book :=
  run_best_seen _ (by decide) (by decide) (Nat.zero_le _) (by decide) (by decide)
    ⟨by decide, by decide, by decide⟩ (Runs.always_of_allowed_ok (by decide +kernel))

/-- The buy order at 0 is filled; the next sell order rests at 0 and `bestsellprice` returns the
sentinel. -/
theorem sell_at_zero_hidden :
    Orderly [unitOrder 1 .buy 0, unitOrder 2 .sell 0, unitOrder 3 .sell 0] ∧ ∃ st b',
      zeroBand.run [unitOrder 1 .buy 0, unitOrder 2 .sell 0, unitOrder 3 .sell 0] = .ok st ∧
      st.book.bestsellprice = .ok (11, b') ∧ st.book.RestsAt .sell 0 ∧ ¬BestSeen st.book := by
  have hview : (do
      let st ← zeroBand.run [unitOrder 1 .buy 0, unitOrder 2 .sell 0, unitOrder 3 .sell 0]
      let best ← st.book.bestsellprice
      .ok (best.1, st.book.queue 0)) = (.ok (11, [unitOrder 3 .sell 0]) : Except Fault _) := by
    decide +kernel
  obtain ⟨st, hrun, hview⟩ := bind_eq_ok.1 hview
  obtain ⟨⟨p, b'⟩, hbest, hview⟩ := bind_eq_ok.1 hview
  obtain ⟨rfl, hqueue⟩ := Prod.mk.inj (Except.ok.inj hview)
  have hrest : st.book.RestsAt .sell 0 := ⟨0, unitOrder 3 .sell 0, by simp [hqueue], rfl, rfl⟩
  refine ⟨⟨by decide, by decide, by decide⟩, st, b', hrun, hbest, hrest, fun hseen => ?_⟩
  obtain ⟨p, b'', hp, -, hle⟩ := hseen.2 ⟨0, hrest⟩
  obtain ⟨rfl, -⟩ := Prod.mk.inj (Except.ok.inj (hbest.symm.trans hp))
  exact absurd (hle 0 hrest) (by decide)

end TradeX
