import TradeX.StopLoss

/-!
# Stops that stay

The loop of `listenForClientOrder`, one iteration after the other : it pops an order if there is
one, reads trades, and looks at every slot. A slot whose price is the one last seen is passed
over, so a stop that is registered after its trigger has been reached stays until the price
changes. `triggered_iff` says that there is no other way : no stop stays that the last price
seen reaches, iff every stop is registered before it is reached, or together with a change of the
price (`Timely`).
-/

namespace TradeX

namespace Oms

/-- What an iteration is given : an order, the trades in the rings, and the price it finds in each
slot. -/
structure Iteration where
  newOrder : Option ClientOrder
  trades : List Trade
  lastPrice : ℕ → ℕ

/-- What an iteration gives the thread, in order. -/
def Iteration.events (it : Iteration) : List Event :=
  it.newOrder.toList.map .order ++ it.trades.map .trade ++
    (List.range maxSymbols).map fun slot => .price slot (it.lastPrice slot)

variable (std : StdHeap ClientOrder)

/-- An iteration of the loop. -/
def iterate (st : Oms) (it : Iteration) : Except Fault Oms :=
  st.run std it.events

/-- Iterations of the loop, one after the other. -/
def iterations (st : Oms) (its : List Iteration) : Except Fault Oms :=
  its.foldlM (iterate std) st

/-! ## The statement -/

/-- No stop of a slot has been reached by a price, unless the price is 0. -/
def TriggeredAt (container : StopLossContainer) (price : ℕ) : Prop :=
  price ≠ 0 → (∀ stop ∈ container.sellStops, ¬ stop.triggerPrice ≥ price) ∧
    ∀ stop ∈ container.buyStops, ¬ stop.triggerPrice ≤ price

/-- No stop that is pending has been reached by the last price seen in its slot. -/
def Triggered (st : Oms) : Prop :=
  ∀ slot < maxSymbols, TriggeredAt (st.stopLossRegistry slot) (st.lastSeenPrice slot)

/-- If an iteration registers a stop in a slot and finds the price there that has been seen last,
that price does not reach the stop. -/
def Timely (st : Oms) (it : Iteration) : Prop :=
  ∀ newOrder ∈ it.newOrder, newOrder.executionType = .stopLoss →
    st.findSymbolId newOrder.symbol ≠ 2 ^ 32 - 1 →
      let slot := st.findSymbolId newOrder.symbol % maxSymbols
      it.lastPrice slot = st.lastSeenPrice slot → st.lastSeenPrice slot ≠ 0 →
        ¬ Hit newOrder (st.lastSeenPrice slot)

/-! ## Heaps of stops -/

theorem isComparison_maxTrigger : IsComparison maxTrigger where
  irrefl a := by simp [maxTrigger]
  trans a b c := by simp only [maxTrigger, decide_eq_true_eq]; omega
  incomp_trans a b c := by simp only [maxTrigger, decide_eq_true_eq]; omega

theorem isComparison_minTrigger : IsComparison minTrigger where
  irrefl a := by simp [minTrigger]
  trans a b c := by simp only [minTrigger, decide_eq_true_eq]; omega
  incomp_trans a b c := by simp only [minTrigger, decide_eq_true_eq]; omega

variable {std} {comp : ClientOrder → ClientOrder → Bool} {hit : ClientOrder → Bool}

/-- A loop of `checkAndTriggerSL` leaves a heap, and none of the stops that are hit, if no stop is
hit where the front one is not. -/
theorem takeStops_left (hcomp : IsComparison comp)
    (hmono : ∀ a b, comp a b = false → hit a = false → hit b = false) :
    ∀ {n : ℕ} {stops : List ClientOrder}, stops.length ≤ n → IsHeap comp stops →
      IsHeap comp (takeStops std comp hit n stops).2 ∧
        ∀ stop ∈ (takeStops std comp hit n stops).2, hit stop = false
  | 0, [], _, hheap => ⟨hheap, fun _ h => absurd h List.not_mem_nil⟩
  | n + 1, [], _, hheap => ⟨hheap, fun _ h => absurd h List.not_mem_nil⟩
  | n + 1, front :: stops, hlen, hheap => by
    rw [takeStops]
    split_ifs with hhit
    · refine takeStops_left hcomp hmono ?_ (std.isHeap_popHeap comp front stops hcomp hheap)
      obtain ⟨v, hpop, hperm⟩ := std.popHeap_perm comp front stops
      rw [hpop, List.dropLast_concat, hperm.length_eq]
      exact Nat.le_of_succ_le_succ hlen
    · refine ⟨hheap, fun stop hstop => ?_⟩
      obtain ⟨i, hi, rfl⟩ := List.getElem_of_mem hstop
      have hroot := hheap.root hcomp rfl i _ (List.getElem?_eq_getElem hi)
      exact hmono front _ hroot (Bool.eq_false_iff.2 hhit)

/-- The stops of every slot are heaps. -/
def Heaps (st : Oms) : Prop :=
  ∀ slot, IsHeap maxTrigger (st.stopLossRegistry slot).sellStops ∧
    IsHeap minTrigger (st.stopLossRegistry slot).buyStops

variable {st st' : Oms} {it : Iteration}

theorem heaps_init (symbolLookupTable : ℕ → ℤ) (bootTimestamp : ℕ)
    (clock uninit : ℕ → ℕ) : Heaps (init symbolLookupTable bootTimestamp clock uninit) :=
  fun _ => ⟨fun i a b _ h => (by cases h), fun i a b _ h => (by cases h)⟩

theorem Quiet.heaps (h : Quiet st st') (hheaps : Heaps st) : Heaps st' := by
  unfold Heaps
  rw [h.registry]
  exact hheaps

/-! ## A new stop -/

/-- The stops of a slot with a new one. -/
def withStop (std : StdHeap ClientOrder) (container : StopLossContainer) (ord : ClientOrder) :
    StopLossContainer :=
  match ord.type with
  | .buy => { container with buyStops := std.pushHeap minTrigger (container.buyStops ++ [ord]) }
  | .sell => { container with sellStops := std.pushHeap maxTrigger (container.sellStops ++ [ord]) }

theorem registry_registerStopLoss (ord : ClientOrder) :
    (st.registerStopLoss std ord).stopLossRegistry = Function.update st.stopLossRegistry
      (ord.symbolId % maxSymbols)
      (withStop std (st.stopLossRegistry (ord.symbolId % maxSymbols)) ord) :=
  rfl

/-- A price reaches no stop of the slot, if it reaches neither the others nor the new one. -/
theorem triggeredAt_withStop {container : StopLossContainer} {ord : ClientOrder} {price : ℕ} :
    TriggeredAt (withStop std container ord) price ↔
      TriggeredAt container price ∧ (price ≠ 0 → ¬ Hit ord price) := by
  have hmem : ∀ {comp : ClientOrder → ClientOrder → Bool} {stops : List ClientOrder}
      {P : ClientOrder → Prop}, (∀ stop ∈ std.pushHeap comp (stops ++ [ord]), P stop) ↔
        (∀ stop ∈ stops, P stop) ∧ P ord := by
    intro comp stops P
    simp only [(std.pushHeap_perm comp _).mem_iff, List.mem_append, List.mem_singleton]
    exact ⟨fun h => ⟨fun stop hstop => h stop (Or.inl hstop), h ord (Or.inr rfl)⟩,
      fun h stop hstop => hstop.elim (h.1 stop) fun heq => heq ▸ h.2⟩
  unfold TriggeredAt withStop Hit
  cases ord.type with
  | buy =>
    simp only [hmem]
    tauto
  | sell =>
    simp only [hmem]
    tauto

theorem Heaps.registerStopLoss (h : Heaps st) (ord : ClientOrder) :
    Heaps (st.registerStopLoss std ord) := by
  intro slot
  rw [registry_registerStopLoss]
  rcases eq_or_ne slot (ord.symbolId % maxSymbols) with rfl | hne
  · obtain ⟨hsell, hbuy⟩ := h (ord.symbolId % maxSymbols)
    rw [Function.update_self]
    unfold withStop
    cases ord.type with
    | buy => exact ⟨hsell, std.isHeap_pushHeap _ _ _ isComparison_minTrigger hbuy⟩
    | sell => exact ⟨std.isHeap_pushHeap _ _ _ isComparison_maxTrigger hsell, hbuy⟩
  · rw [Function.update_of_ne hne]
    exact h slot

/-! ## A look at the slots -/

/-- What a look at a slot does to it, and to the others. -/
structure Looked (st : Oms) (slot currentLtp : ℕ) (st' : Oms) : Prop where
  table : st'.symbolLookupTable = st.symbolLookupTable
  heaps : Heaps st'
  lastSeen : st'.lastSeenPrice = Function.update st.lastSeenPrice slot currentLtp
  others : ∀ slot' ≠ slot, st'.stopLossRegistry slot' = st.stopLossRegistry slot'
  changed : currentLtp ≠ st.lastSeenPrice slot →
    TriggeredAt (st'.stopLossRegistry slot) currentLtp
  same : currentLtp = st.lastSeenPrice slot →
    st'.stopLossRegistry slot = st.stopLossRegistry slot

/-- The stops of a slot after `checkAndTriggerSL`. -/
def withoutHit (std : StdHeap ClientOrder) (container : StopLossContainer) (currentLtp : ℕ) :
    StopLossContainer where
  sellStops := (takeStops std maxTrigger (fun stop => currentLtp ≤ stop.triggerPrice)
    container.sellStops.length container.sellStops).2
  buyStops := (takeStops std minTrigger (fun stop => currentLtp ≥ stop.triggerPrice)
    container.buyStops.length container.buyStops).2

/-- No stop that is hit is left. -/
theorem triggeredAt_withoutHit (std : StdHeap ClientOrder) {container : StopLossContainer}
    (currentLtp : ℕ)
    (hsell : IsHeap maxTrigger container.sellStops) (hbuy : IsHeap minTrigger container.buyStops) :
    IsHeap maxTrigger (withoutHit std container currentLtp).sellStops ∧
      IsHeap minTrigger (withoutHit std container currentLtp).buyStops ∧
      TriggeredAt (withoutHit std container currentLtp) currentLtp := by
  have hsells : IsHeap maxTrigger (withoutHit std container currentLtp).sellStops ∧
      ∀ stop ∈ (withoutHit std container currentLtp).sellStops,
        decide (currentLtp ≤ stop.triggerPrice) = false :=
    takeStops_left isComparison_maxTrigger
      (by simp only [maxTrigger, decide_eq_false_iff_not]; omega) le_rfl hsell
  have hbuys : IsHeap minTrigger (withoutHit std container currentLtp).buyStops ∧
      ∀ stop ∈ (withoutHit std container currentLtp).buyStops,
        decide (currentLtp ≥ stop.triggerPrice) = false :=
    takeStops_left isComparison_minTrigger
      (by simp only [minTrigger, decide_eq_false_iff_not]; omega) le_rfl hbuy
  exact ⟨hsells.1, hbuys.1,
    fun _ => ⟨fun stop hstop => of_decide_eq_false (hsells.2 stop hstop),
    fun stop hstop => of_decide_eq_false (hbuys.2 stop hstop)⟩⟩

theorem registry_checkAndTriggerSL (std : StdHeap ClientOrder) (st : Oms) (slot currentLtp : ℕ) :
    (st.checkAndTriggerSL std slot currentLtp).stopLossRegistry =
      Function.update st.stopLossRegistry slot
        (withoutHit std (st.stopLossRegistry slot) currentLtp) :=
  (triggerStops_spec _ _).2.1

theorem lastSeenPrice_checkAndTriggerSL (slot currentLtp : ℕ) :
    (st.checkAndTriggerSL std slot currentLtp).lastSeenPrice = st.lastSeenPrice :=
  (triggerStops_spec _ _).2.2.1

theorem Heaps.pollPrice (h : Heaps st) (std : StdHeap ClientOrder) (slot currentLtp : ℕ) :
    Looked st slot currentLtp (st.pollPrice std slot currentLtp) := by
  rw [Oms.pollPrice]
  split_ifs with hchanged
  · have hregistry := registry_checkAndTriggerSL std st slot currentLtp
    obtain ⟨hsell, hbuy, htriggered⟩ :=
      triggeredAt_withoutHit std currentLtp (h slot).1 (h slot).2
    refine ⟨(triggerStops_spec _ _).1, fun slot' => ?_, ?_, fun slot' hne => ?_, fun _ => ?_,
      fun heq => absurd heq hchanged⟩
    · simp only [hregistry]
      rcases eq_or_ne slot' slot with rfl | hne
      · rw [Function.update_self]
        exact ⟨hsell, hbuy⟩
      · rw [Function.update_of_ne hne]
        exact h slot'
    · simp only [lastSeenPrice_checkAndTriggerSL]
    · simp only [hregistry, Function.update_of_ne hne]
    · simp only [hregistry, Function.update_self]
      exact htriggered
  · rw [not_not] at hchanged
    refine ⟨rfl, h, ?_, fun _ _ => rfl, fun hne => absurd hchanged hne, fun _ => rfl⟩
    rw [hchanged, Function.update_eq_self]

/-- What a look at the first `n` slots does. -/
structure LookedAll (st : Oms) (n : ℕ) (lastPrice : ℕ → ℕ) (st' : Oms) : Prop where
  table : st'.symbolLookupTable = st.symbolLookupTable
  heaps : Heaps st'
  lastSeen : ∀ slot, st'.lastSeenPrice slot =
    if slot < n then lastPrice slot else st.lastSeenPrice slot
  others : ∀ slot, n ≤ slot → st'.stopLossRegistry slot = st.stopLossRegistry slot
  changed : ∀ slot < n, lastPrice slot ≠ st.lastSeenPrice slot →
    TriggeredAt (st'.stopLossRegistry slot) (lastPrice slot)
  same : ∀ slot < n, lastPrice slot = st.lastSeenPrice slot →
    st'.stopLossRegistry slot = st.stopLossRegistry slot

/-- The loop over the slots. -/
theorem Heaps.polls (h : Heaps st) (std : StdHeap ClientOrder) (lastPrice : ℕ → ℕ) :
    ∀ n : ℕ, ∃ st',
    st.run std ((List.range n).map fun slot => .price slot (lastPrice slot)) = .ok st' ∧
      LookedAll st n lastPrice st'
  | 0 => ⟨st, rfl, rfl, h, fun slot => (if_neg (Nat.not_lt_zero slot)).symm, fun _ _ => rfl,
      fun _ hlt => absurd hlt (Nat.not_lt_zero _), fun _ hlt => absurd hlt (Nat.not_lt_zero _)⟩
  | n + 1 => by
    obtain ⟨st₁, hrun, h₁⟩ := h.polls std lastPrice n
    have hlook := h₁.heaps.pollPrice std n (lastPrice n)
    have hseen : st₁.lastSeenPrice n = st.lastSeenPrice n :=
      (h₁.lastSeen n).trans (if_neg (Nat.lt_irrefl n))
    have hkept := h₁.others n le_rfl
    refine ⟨st₁.pollPrice std n (lastPrice n), ?_, hlook.table.trans h₁.table, hlook.heaps,
      fun slot => ?_, fun slot hslot => ?_, fun slot hslot hne => ?_, fun slot hslot heq => ?_⟩
    · rw [run, List.range_succ, List.map_append, List.foldlM_append]
      exact bind_eq_ok.2 ⟨st₁, hrun, rfl⟩
    · rw [hlook.lastSeen]
      rcases eq_or_ne slot n with rfl | hne
      · rw [Function.update_self, if_pos (Nat.lt_succ_self slot)]
      · rw [Function.update_of_ne hne, h₁.lastSeen]
        exact if_congr (by omega) rfl rfl
    · rw [hlook.others slot (by omega), h₁.others slot (by omega)]
    · rcases eq_or_ne slot n with rfl | hslot'
      · exact hlook.changed (hseen ▸ hne)
      · rw [hlook.others slot hslot']
        exact h₁.changed slot (by omega) hne
    · rcases eq_or_ne slot n with rfl | hslot'
      · rw [hlook.same (hseen ▸ heq), hkept]
      · rw [hlook.others slot hslot', h₁.same slot (by omega) heq]

/-! ## An iteration -/

/-- An order is a stop for a known symbol. -/
def IsStop (st : Oms) (newOrder : ClientOrder) : Prop :=
  newOrder.executionType = .stopLoss ∧ st.findSymbolId newOrder.symbol ≠ 2 ^ 32 - 1

theorem receive_stop {newOrder : ClientOrder} (h : IsStop st newOrder) :
    st.receive std newOrder = st.registerStopLoss std (st.withSymbolId newOrder) := by
  have htype : (st.withSymbolId newOrder).executionType = .stopLoss := h.1
  have hsymbol : (st.withSymbolId newOrder).symbolId ≠ 2 ^ 32 - 1 := h.2
  rw [receive, if_pos hsymbol, htype]

theorem quiet_receive {newOrder : ClientOrder} (h : ¬ IsStop st newOrder) :
    Quiet st (st.receive std newOrder) := by
  rw [receive]
  split_ifs with hsymbol
  · split
    · refine Quiet.trans ?_ (quiet_sendSlice _ _)
      exact .of_eq rfl rfl rfl rfl
    next htype => exact absurd ⟨htype, hsymbol⟩ h
    · exact quiet_dispatch (by decide) _ _ _
    · rw [sendLimit]
      split_ifs
      · exact quiet_dispatch (by decide) _ _ _
      · exact .refl st
  · exact .refl st

theorem quiet_trades : ∀ {trades : List Trade} {st st' : Oms},
    st.run std (trades.map .trade) = .ok st' → Quiet st st'
  | [], st, st', h => by
    cases h
    exact .refl st
  | t :: trades, st, st', h => by
    rw [run, List.map_cons, List.foldlM_cons] at h
    obtain ⟨st₁, hfill, hrest⟩ := bind_eq_ok.1 h
    exact (quiet_checkFill hfill).trans (quiet_trades hrest)

/-- What an iteration does before it looks at the slots. -/
structure Prepared (std : StdHeap ClientOrder) (st : Oms) (it : Iteration) (st' : Oms) : Prop where
  table : st'.symbolLookupTable = st.symbolLookupTable
  heaps : Heaps st → Heaps st'
  lastSeen : st'.lastSeenPrice = st.lastSeenPrice
  registered : ∀ newOrder, it.newOrder = some newOrder → IsStop st newOrder →
    st'.stopLossRegistry = (st.registerStopLoss std (st.withSymbolId newOrder)).stopLossRegistry
  kept : (∀ newOrder, it.newOrder = some newOrder → ¬ IsStop st newOrder) →
    st'.stopLossRegistry = st.stopLossRegistry

/-- The order that an iteration pops. -/
theorem prepared_order (std : StdHeap ClientOrder) (st : Oms) (it : Iteration) : ∃ st₁,
    st.run std (it.newOrder.toList.map .order) = .ok st₁ ∧ Prepared std st it st₁ := by
  cases hnew : it.newOrder with
  | none =>
    refine ⟨st, rfl, rfl, fun h => h, rfl, fun newOrder heq => ?_, fun _ => rfl⟩
    rw [hnew] at heq
    cases heq
  | some newOrder =>
    refine ⟨st.receive std newOrder, rfl, ?_⟩
    by_cases hstop : IsStop st newOrder
    · rw [receive_stop hstop]
      refine ⟨rfl, fun h => h.registerStopLoss _, rfl, fun newOrder' heq _ => ?_, fun h => ?_⟩
      · rw [hnew, Option.some.injEq] at heq
        rw [heq]
      · exact absurd hstop (h newOrder hnew)
    · have hquiet : Quiet st (st.receive std newOrder) := quiet_receive hstop
      refine ⟨hquiet.table, hquiet.heaps, hquiet.lastSeen, fun newOrder' heq hstop' => ?_,
        fun _ => hquiet.registry⟩
      rw [hnew, Option.some.injEq] at heq
      exact absurd (heq ▸ hstop') hstop

/-- An iteration, up to the look at the slots and after it. -/
theorem iterate_cases (hheaps : Heaps st) (hstep : st.iterate std it = .ok st') :
    ∃ st₁, Prepared std st it st₁ ∧ LookedAll st₁ maxSymbols it.lastPrice st' := by
  obtain ⟨st₁, horder, hprepared⟩ := prepared_order std st it
  unfold iterate Iteration.events run at hstep
  rw [List.foldlM_append, List.foldlM_append] at hstep
  obtain ⟨st₂, hfirst, hpolls⟩ := bind_eq_ok.1 hstep
  obtain ⟨st₁', horder', htrades⟩ := bind_eq_ok.1 hfirst
  obtain rfl := Except.ok.inj (horder.symm.trans horder')
  have hquiet := quiet_trades htrades
  have hprepared₂ : Prepared std st it st₂ :=
    ⟨hquiet.table.trans hprepared.table, fun h => hquiet.heaps (hprepared.heaps h),
      hquiet.lastSeen.trans hprepared.lastSeen,
      fun newOrder hnew hstop => hquiet.registry.trans (hprepared.registered newOrder hnew hstop),
      fun h => hquiet.registry.trans (hprepared.kept h)⟩
  obtain ⟨st₃, hrun, hlooked⟩ := (hprepared₂.heaps hheaps).polls std it.lastPrice maxSymbols
  obtain rfl := Except.ok.inj (hrun.symm.trans hpolls)
  exact ⟨st₂, hprepared₂, hlooked⟩

/-- An iteration without trades ends. -/
theorem Heaps.exists_iterate (h : Heaps st) (std : StdHeap ClientOrder)
    (newOrder : Option ClientOrder)
    (lastPrice : ℕ → ℕ) : ∃ st', st.iterate std ⟨newOrder, [], lastPrice⟩ =
    .ok st' := by
  obtain ⟨st₁, horder, hprepared⟩ := prepared_order std st ⟨newOrder, [], lastPrice⟩
  obtain ⟨st', hrun, -⟩ := (hprepared.heaps h).polls std lastPrice maxSymbols
  refine ⟨st', ?_⟩
  unfold iterate Iteration.events run
  rw [List.foldlM_append, List.foldlM_append]
  exact bind_eq_ok.2 ⟨st₁, bind_eq_ok.2 ⟨st₁, horder, rfl⟩, hrun⟩

/-- An iteration leaves a stop that has been reached iff it registers it untimely. -/
theorem Triggered.iterate_iff (h : Triggered st) (hheaps : Heaps st)
    (hstep : st.iterate std it = .ok st') : Triggered st' ↔ Timely st it := by
  obtain ⟨st₁, hprepared, hlooked⟩ := iterate_cases hheaps hstep
  -- a slot where the price has not changed is as it was before the look
  have hslots : Triggered st' ↔ ∀ slot < maxSymbols, it.lastPrice slot =
      st.lastSeenPrice slot →
      TriggeredAt (st₁.stopLossRegistry slot) (st.lastSeenPrice slot) := by
    refine forall₂_congr fun slot hslot => ?_
    have hseen : st'.lastSeenPrice slot = it.lastPrice slot :=
      (hlooked.lastSeen slot).trans (if_pos hslot)
    rw [hseen, ← hprepared.lastSeen]
    constructor
    · intro htriggered heq
      rw [← hlooked.same slot hslot heq, ← heq]
      exact htriggered
    · intro hkept
      by_cases heq : it.lastPrice slot = st₁.lastSeenPrice slot
      · rw [hlooked.same slot hslot heq, heq]
        exact hkept heq
      · exact hlooked.changed slot hslot heq
  rw [hslots]
  by_cases hstop : ∃ newOrder, it.newOrder = some newOrder ∧ IsStop st newOrder
  · obtain ⟨newOrder, hnew, hstop⟩ := hstop
    rw [hprepared.registered newOrder hnew hstop, registry_registerStopLoss]
    constructor
    · intro hall newOrder' hnew' _ _ slot heq hne
      rw [hnew, Option.mem_some_iff] at hnew'
      subst hnew'
      have hslot := hall slot (Nat.mod_lt _ (by decide)) heq
      rw [show slot = (st.withSymbolId newOrder).symbolId % maxSymbols from rfl,
        Function.update_self, triggeredAt_withStop] at hslot
      exact hslot.2 hne
    · intro htimely slot hslot heq
      rcases eq_or_ne slot ((st.withSymbolId newOrder).symbolId % maxSymbols) with rfl | hne
      · rw [Function.update_self, triggeredAt_withStop]
        exact ⟨h _ hslot, fun hprice => htimely newOrder hnew hstop.1 hstop.2 heq hprice⟩
      · rw [Function.update_of_ne hne]
        exact h slot hslot
  · have hnone : ∀ newOrder, it.newOrder = some newOrder → ¬ IsStop st newOrder :=
      fun newOrder hnew hs => hstop ⟨newOrder, hnew, hs⟩
    rw [hprepared.kept hnone]
    exact iff_of_true (fun slot hslot _ => h slot hslot) fun newOrder hnew htype hsymbol =>
      absurd ⟨htype, hsymbol⟩ (hnone newOrder hnew)

/-! ## Whole runs -/

theorem triggered_init (symbolLookupTable : ℕ → ℤ) (bootTimestamp : ℕ)
    (clock uninit : ℕ → ℕ) : Triggered (init symbolLookupTable bootTimestamp clock uninit) :=
  fun _ _ h => absurd rfl h

/-- At the end of every iteration no stop is pending that the last price seen reaches, iff every
stop is registered in time. -/
theorem triggered_iff (std : StdHeap ClientOrder) (symbolLookupTable : ℕ → ℤ)
    (bootTimestamp : ℕ) (clock uninit : ℕ → ℕ) (its : List Iteration)
    (hrun : (init symbolLookupTable bootTimestamp clock uninit).iterations std its = .ok st) :
    (∀ pre post st', its = pre ++ post →
      (init symbolLookupTable bootTimestamp clock uninit).iterations std pre = .ok st' →
        Triggered st') ↔
      Runs.Always (fun st it st' => iterate std st it = .ok st') Timely
        (init symbolLookupTable bootTimestamp clock uninit) its := by
  -- every iteration of the run ends
  have hends : Runs.Always (fun st it st' => iterate std st it = .ok st')
      (fun st it => ∃ st', iterate std st it = .ok st')
      (init symbolLookupTable bootTimestamp clock uninit) its := by
    intro pre it post st₁ hits hpre
    have hsteps := Runs.steps_iff_ok.2 hrun
    rw [hits, Runs.steps_append] at hsteps
    obtain ⟨st₂, hpre', st₃, hit, -⟩ := hsteps
    have heq := (Runs.steps_iff_ok.1 hpre).symm.trans (Runs.steps_iff_ok.1 hpre')
    cases heq
    exact ⟨st₃, hit⟩
  have hiff := Runs.always_iff (R := fun st it st' => iterate std st it = .ok st') (I := Heaps)
    (G := Triggered) (P := Timely) (L := fun st it => ∃ st', iterate std st it = .ok st')
    (fun h _ hstep => (iterate_cases h hstep).choose_spec.2.heaps)
    (fun h _ hstep ht => ht.iterate_iff h hstep) (fun _ hend => Or.inr hend)
    (heaps_init symbolLookupTable bootTimestamp clock uninit)
    (triggered_init symbolLookupTable bootTimestamp clock uninit) hends
  simp only [Runs.steps_iff_ok] at hiff
  exact hiff

/-- The system at its start, with two symbols. -/
def twoSymbols : Oms :=
  init System.twoSymbolTable 0 (fun n => n) fun n => n

/-- An iteration that finds a price in the slot of `AAPL`. -/
def priceIteration (newOrder : Option ClientOrder) (price : ℕ) : Iteration :=
  ⟨newOrder, [], fun slot => if slot = 1 then price else 0⟩

/-- A stop at 100 in `AAPL`. -/
def sellStop : ClientOrder :=
  System.clientOrder 1 [65, 65, 80, 76] .sell .stopLoss

/-- The stop is registered at 120, and the price falls. -/
def stopFirst : List Iteration :=
  [priceIteration none 120, priceIteration (some sellStop) 120, priceIteration none 100]

theorem triggered_stopFirst : ∃ st, twoSymbols.iterations (.sorting _) stopFirst = .ok st ∧
    ∀ pre post st', stopFirst = pre ++ post → twoSymbols.iterations (.sorting _) pre =
      .ok st' → Triggered st' := by
  have h₀ : Heaps twoSymbols := heaps_init _ _ _ _
  obtain ⟨st₁, hst₁⟩ := h₀.exists_iterate (.sorting _) none fun slot => if slot =
    1 then 120 else 0
  have h₁ := (iterate_cases h₀ hst₁).choose_spec.2.heaps
  obtain ⟨st₂, hst₂⟩ :=
    h₁.exists_iterate (.sorting _) (some sellStop) fun slot => if slot = 1 then 120 else 0
  have h₂ := (iterate_cases h₁ hst₂).choose_spec.2.heaps
  obtain ⟨st₃, hst₃⟩ := h₂.exists_iterate (.sorting _) none fun slot => if slot =
    1 then 100 else 0
  have hrun : twoSymbols.iterations (.sorting _) stopFirst = .ok st₃ :=
    bind_eq_ok.2 ⟨st₁, hst₁,
      bind_eq_ok.2 ⟨st₂, hst₂, bind_eq_ok.2 ⟨st₃, hst₃, rfl⟩⟩⟩
  -- a price of 120 does not reach the stop
  have htimely : ∀ it ∈ stopFirst, ∀ st : Oms, Timely st it := by
    intro it hit st newOrder hnew _ _ slot heq hne
    simp only [stopFirst, List.mem_cons, List.not_mem_nil, or_false] at hit
    rcases hit with rfl | rfl | rfl
    · cases hnew
    · cases hnew
      rw [← heq] at hne ⊢
      simp only [priceIteration] at hne ⊢
      split_ifs at hne ⊢
      · decide
      · exact absurd rfl hne
    · cases hnew
  exact ⟨st₃, hrun, (triggered_iff _ _ _ _ _ _ hrun).2 (.of_forall_mem htimely)⟩

/-- The price falls to 100, and the stop is registered. -/
def priceFirst : List Iteration :=
  [priceIteration none 100, priceIteration (some sellStop) 100]

/-- The stop is pending although the last price has reached it. -/
theorem stop_stays : ∃ st, twoSymbols.iterations (.sorting _) priceFirst = .ok st ∧
    st.lastSeenPrice 1 = 100 ∧
    (∃ stop ∈ (st.stopLossRegistry 1).sellStops, stop.triggerPrice ≥ st.lastSeenPrice 1) ∧
    ¬ Triggered st := by
  have h₀ : Heaps twoSymbols := heaps_init _ _ _ _
  obtain ⟨st₁, hst₁⟩ := h₀.exists_iterate (.sorting _) none fun slot => if slot =
    1 then 100 else 0
  obtain ⟨st₁', hprepared, hlooked⟩ := iterate_cases h₀ hst₁
  have hseen₁ : st₁.lastSeenPrice 1 = 100 := hlooked.lastSeen 1
  obtain ⟨st₂, hst₂⟩ :=
    hlooked.heaps.exists_iterate (.sorting _) (some sellStop) fun slot => if slot =
      1 then 100 else 0
  obtain ⟨st₂', hprepared₂, hlooked₂⟩ := iterate_cases hlooked.heaps hst₂
  have hseen₂ : st₂.lastSeenPrice 1 = 100 := hlooked₂.lastSeen 1
  have hsymbol : st₁.findSymbolId sellStop.symbol = 1 := by
    rw [findSymbolId, findId, hlooked.table, hprepared.table]
    decide
  -- the stop is in the slot, which is passed over
  have hregistry : st₂.stopLossRegistry 1 =
      withStop (.sorting _) (st₁.stopLossRegistry 1) (st₁.withSymbolId sellStop) := by
    have hslot : (st₁.withSymbolId sellStop).symbolId % maxSymbols = 1 := by
      rw [withSymbolId, hsymbol]
      rfl
    rw [hlooked₂.same 1 (by decide) (by rw [hprepared₂.lastSeen, hseen₁]; rfl),
      hprepared₂.registered sellStop rfl ⟨rfl, by rw [hsymbol]; decide⟩,
      registry_registerStopLoss, hslot, Function.update_self]
  have hpending : st₁.withSymbolId sellStop ∈ (st₂.stopLossRegistry 1).sellStops := by
    rw [hregistry]
    exact ((StdHeap.sorting _).pushHeap_perm _ _).mem_iff.2
      (List.mem_append_right _ (List.mem_singleton_self _))
  have hreached : (st₁.withSymbolId sellStop).triggerPrice ≥ st₂.lastSeenPrice 1 := by
    rw [hseen₂]
    exact le_rfl
  refine ⟨st₂, bind_eq_ok.2 ⟨st₁, hst₁, bind_eq_ok.2 ⟨st₂, hst₂, rfl⟩⟩,
    hseen₂, ⟨_, hpending, hreached⟩, fun htriggered => ?_⟩
  exact (htriggered 1 (by decide) (by rw [hseen₂]; decide)).1 _ hpending hreached

end Oms

end TradeX
