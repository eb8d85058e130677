import TradeX.System
import TradeX.Library.Runs

/-!
# Stop losses

A stop is dispatched when the price in a slot reaches its trigger. Both the prices and the
stops are kept in `MAX_SYMBOLS` slots, by the low bits of the symbol, and there are
`TOTAL_SYMBOLS` symbols, so two symbols share a slot, and the price of one can trigger the
stops of the other (`stop_crossed`). `run_stopsSound` says that this is all that goes wrong :
a run in which every price that the system finds in a slot reaches only stops of the symbol
that has made it dispatches stops for trades of their own symbols only.
-/

namespace TradeX

/-- A price reaches the trigger of a stop. -/
def Hit (stop : ClientOrder) (price : ℕ) : Prop :=
  match stop.type with
  | .sell => price ≤ stop.triggerPrice
  | .buy => stop.triggerPrice ≤ price

instance (stop : ClientOrder) (price : ℕ) : Decidable (Hit stop price) := by
  unfold Hit
  cases stop.type <;> exact inferInstanceAs (Decidable (_ ≤ _))

namespace Oms

variable {std : StdHeap ClientOrder} {st st' : Oms}

/-! ## The registry -/

/-- The stops of a side in a slot. -/
def stopsAt (st : Oms) (slot : ℕ) : OrderType → List ClientOrder
  | .sell => (st.stopLossRegistry slot).sellStops
  | .buy => (st.stopLossRegistry slot).buyStops

/-- The stops are where their side and their symbol put them. -/
def Filed (st : Oms) : Prop :=
  ∀ slot side, ∀ stop ∈ st.stopsAt slot side, stop.type = side ∧
    stop.symbolId = st.findSymbolId stop.symbol ∧ stop.symbolId % maxSymbols = slot

/-- A call that dispatches no stop and leaves the registry and the prices alone. -/
structure Quiet (st st' : Oms) : Prop where
  table : st'.symbolLookupTable = st.symbolLookupTable
  registry : st'.stopLossRegistry = st.stopLossRegistry
  lastSeen : st'.lastSeenPrice = st.lastSeenPrice
  dispatched : ∃ new, st'.dispatched = st.dispatched ++ new ∧
    ∀ d ∈ new, d.site ≠ .stopLoss

theorem Quiet.of_eq (htable : st'.symbolLookupTable = st.symbolLookupTable)
    (hregistry : st'.stopLossRegistry = st.stopLossRegistry)
    (hseen : st'.lastSeenPrice = st.lastSeenPrice) (hdispatched : st'.dispatched = st.dispatched) :
    Quiet st st' :=
  ⟨htable, hregistry, hseen, [], by rw [hdispatched, List.append_nil], by simp⟩

theorem Quiet.refl (st : Oms) : Quiet st st :=
  .of_eq rfl rfl rfl rfl

theorem Quiet.trans {st₁ st₂ st₃ : Oms} (h : Quiet st₁ st₂) (h' : Quiet st₂ st₃) :
    Quiet st₁ st₃ := by
  obtain ⟨new, hnew, hsite⟩ := h.dispatched
  obtain ⟨new', hnew', hsite'⟩ := h'.dispatched
  refine ⟨h'.table.trans h.table, h'.registry.trans h.registry, h'.lastSeen.trans h.lastSeen,
    new ++ new', by rw [hnew', hnew, List.append_assoc], fun d hd => ?_⟩
  exact (List.mem_append.1 hd).elim (hsite d) (hsite' d)

theorem Quiet.filed (h : Quiet st st') (hf : Filed st) : Filed st' := by
  intro slot side stop hstop
  have hat : st'.stopsAt slot side = st.stopsAt slot side := by
    cases side <;> simp only [stopsAt, h.registry]
  have hfind : st'.findSymbolId stop.symbol = st.findSymbolId stop.symbol := by
    rw [findSymbolId, findSymbolId, findId, findId, h.table]
  rw [hat] at hstop
  rw [hfind]
  exact hf slot side stop hstop

/-- A dispatch that is not a stop. -/
theorem quiet_dispatch {site : DispatchSite} (hsite : site ≠ .stopLoss) (n : ℕ)
    (client : ClientOrder) (order : Order) :
    Quiet st ({ st with nextOmsOrderId := n }.dispatch site client order) :=
  ⟨rfl, rfl, rfl, _, rfl, by simpa using hsite⟩

theorem quiet_sendSlice (st : Oms) (parentId : ℕ) : Quiet st (st.sendSlice parentId) := by
  simp only [sendSlice]
  split_ifs
  · exact .of_eq rfl rfl rfl rfl
  · exact ⟨rfl, rfl, rfl, _, rfl, by simp⟩
  · exact .of_eq rfl rfl rfl rfl

theorem quiet_checkLeg {id q : ℕ} (h : st.checkLeg id q = .ok st') : Quiet st st' := by
  simp only [checkLeg, processIcebergLeg] at h
  split_ifs at h
  · split at h
    · cases h
      exact .refl st
    · split_ifs at h
      · cases h
        refine Quiet.trans ?_ (quiet_sendSlice _ _)
        exact .of_eq rfl rfl rfl rfl
      · cases h
        exact .of_eq rfl rfl rfl rfl
  · cases h
    exact .refl st

theorem quiet_checkFill {t : Trade} (h : st.checkFill t = .ok st') : Quiet st st' := by
  rw [checkFill] at h
  split_ifs at h
  · cases h
    exact .refl st
  · obtain ⟨st₁, hbuy, hsell⟩ := bind_eq_ok.1 h
    exact (quiet_checkLeg hbuy).trans (quiet_checkLeg hsell)

/-- The stops after a stop has been registered. -/
theorem mem_stopsAt_registerStopLoss {ord stop : ClientOrder} {slot : ℕ} {side : OrderType}
    (hstop : stop ∈ (st.registerStopLoss std ord).stopsAt slot side) :
    stop ∈ st.stopsAt slot side ∨ stop = ord ∧ ord.type = side ∧
      ord.symbolId % maxSymbols = slot := by
  rcases eq_or_ne slot (ord.symbolId % maxSymbols) with rfl | hne
  · cases hside : side <;> cases htype : ord.type <;>
      simp only [stopsAt, Oms.registerStopLoss, Function.update_self, htype, hside,
        (std.pushHeap_perm _ _).mem_iff, List.mem_append, List.mem_singleton] at hstop ⊢ <;>
      simpa using hstop
  · have hat : (st.registerStopLoss std ord).stopsAt slot side = st.stopsAt slot side := by
      cases side <;> simp only [stopsAt, Oms.registerStopLoss, Function.update_of_ne hne]
    exact Or.inl (hat ▸ hstop)

/-- A stop is filed under its symbol. -/
theorem Filed.registerStopLoss (h : Filed st) {ord : ClientOrder}
    (hord : ord.symbolId = st.findSymbolId ord.symbol) : Filed (st.registerStopLoss std ord) := by
  intro slot side stop hstop
  have hfind : (st.registerStopLoss std ord).findSymbolId stop.symbol =
      st.findSymbolId stop.symbol := rfl
  rw [hfind]
  rcases mem_stopsAt_registerStopLoss hstop with hmem | ⟨rfl, hside, hslot⟩
  · exact h slot side stop hmem
  · exact ⟨hside, hord, hslot⟩

/-- What `listenForClientOrder` does with an order it has popped. -/
theorem receive_cases (std : StdHeap ClientOrder) (st : Oms) (newOrder : ClientOrder) :
    Quiet st (st.receive std newOrder) ∨
      st.receive std newOrder = st.registerStopLoss std (st.withSymbolId newOrder) := by
  rw [receive]
  split_ifs
  · split
    · refine Or.inl (Quiet.trans ?_ (quiet_sendSlice _ _))
      exact .of_eq rfl rfl rfl rfl
    · exact Or.inr rfl
    · exact Or.inl (quiet_dispatch (by decide) _ _ _)
    · rw [sendLimit]
      split_ifs
      · exact Or.inl (quiet_dispatch (by decide) _ _ _)
      · exact Or.inl (.refl st)
  · exact Or.inl (.refl st)

/-! ## The prices -/

/-- The stops that a loop of `checkAndTriggerSL` takes are hit, and it takes and leaves stops
of the heap. -/
theorem mem_takeStops {comp : ClientOrder → ClientOrder → Bool} {hit : ClientOrder → Bool} :
    ∀ {n : ℕ} {stops : List ClientOrder} {stop : ClientOrder},
      (stop ∈ (takeStops std comp hit n stops).1 → stop ∈ stops ∧ hit stop = true) ∧
        (stop ∈ (takeStops std comp hit n stops).2 → stop ∈ stops)
  | 0, stops, stop => by simp [takeStops]
  | n + 1, [], stop => by simp [takeStops]
  | n + 1, front :: stops, stop => by
    obtain ⟨v, hpop, hperm⟩ := std.popHeap_perm comp front stops
    have ih := @mem_takeStops comp hit n v stop
    rw [takeStops, hpop, List.dropLast_concat]
    split_ifs with hhit
    · refine ⟨fun hmem => ?_, fun hmem => List.mem_cons_of_mem _ (hperm.mem_iff.1 (ih.2 hmem))⟩
      rcases List.mem_cons.1 hmem with rfl | hmem
      · exact ⟨List.mem_cons_self, hhit⟩
      · exact ⟨List.mem_cons_of_mem _ (hperm.mem_iff.1 (ih.1 hmem).1), (ih.1 hmem).2⟩
    · exact ⟨fun hmem => absurd hmem List.not_mem_nil, fun hmem => hmem⟩

theorem triggerStop_dispatched (st : Oms) (stop : ClientOrder) :
    ∃ d, (st.triggerStop stop).dispatched = st.dispatched ++ [d] ∧ d.client = stop ∧
      d.order.symbolId = st.findSymbolId stop.symbol :=
  ⟨_, rfl, rfl, rfl⟩

/-- What the loops of `checkAndTriggerSL` dispatch. -/
theorem triggerStops_spec : ∀ (stops : List ClientOrder) (st : Oms),
    (stops.foldl triggerStop st).symbolLookupTable = st.symbolLookupTable ∧
    (stops.foldl triggerStop st).stopLossRegistry = st.stopLossRegistry ∧
    (stops.foldl triggerStop st).lastSeenPrice = st.lastSeenPrice ∧
    ∃ new, (stops.foldl triggerStop st).dispatched = st.dispatched ++ new ∧ ∀ d ∈ new,
      d.client ∈ stops ∧ d.order.symbolId = st.findSymbolId d.client.symbol
  | [], st => ⟨rfl, rfl, rfl, [], (List.append_nil _).symm, by simp⟩
  | stop :: stops, st => by
    obtain ⟨htable, hregistry, hseen, new, hnew, hmem⟩ :=
      triggerStops_spec stops (st.triggerStop stop)
    obtain ⟨first, hfirst, hclient, hsymbol⟩ := triggerStop_dispatched st stop
    refine ⟨htable, hregistry, hseen, first :: new, ?_, fun d hd => ?_⟩
    · rw [List.foldl_cons, hnew, hfirst, ← List.append_cons]
    · rcases List.mem_cons.1 hd with rfl | hd
      · rw [hclient]
        exact ⟨List.mem_cons_self, hsymbol⟩
      · exact ⟨List.mem_cons_of_mem _ (hmem d hd).1, (hmem d hd).2⟩

/-- What the look at a slot does. -/
structure Polled (st : Oms) (slot currentLtp : ℕ) (st' : Oms) : Prop where
  table : st'.symbolLookupTable = st.symbolLookupTable
  left : ∀ slot side, ∀ stop ∈ st'.stopsAt slot side, stop ∈ st.stopsAt slot side
  filed : Filed st'
  lastSeen : st'.lastSeenPrice = Function.update st.lastSeenPrice slot currentLtp
  dispatched : ∃ new, st'.dispatched = st.dispatched ++ new ∧ ∀ d ∈ new,
    currentLtp ≠ st.lastSeenPrice slot ∧ (∃ side, d.client ∈ st.stopsAt slot side) ∧
      Hit d.client currentLtp ∧ d.order.symbolId = d.client.symbolId

theorem polled_pollPrice (std : StdHeap ClientOrder) (hf : Filed st) (slot currentLtp : ℕ) :
    Polled st slot currentLtp (st.pollPrice std slot currentLtp) := by
  rw [pollPrice]
  split_ifs with hchanged
  · simp only [checkAndTriggerSL]
    generalize hsells : takeStops std maxTrigger (fun stop => currentLtp ≤ stop.triggerPrice)
      (st.stopLossRegistry slot).sellStops.length (st.stopLossRegistry slot).sellStops = sells
    generalize hbuys : takeStops std minTrigger (fun stop => currentLtp ≥ stop.triggerPrice)
      (st.stopLossRegistry slot).buyStops.length (st.stopLossRegistry slot).buyStops = buys
    obtain ⟨htable, hregistry, hseen, new, hnew, hmem⟩ := triggerStops_spec (sells.1 ++ buys.1)
      { st with stopLossRegistry := Function.update st.stopLossRegistry slot ⟨sells.2, buys.2⟩ }
    have hfind : ∀ symbol, (List.foldl triggerStop { st with
        stopLossRegistry := Function.update st.stopLossRegistry slot ⟨sells.2, buys.2⟩ }
        (sells.1 ++ buys.1)).findSymbolId symbol = st.findSymbolId symbol := fun symbol => by
      rw [findSymbolId, findSymbolId, findId, findId, htable]
    generalize hst' : List.foldl triggerStop { st with
        stopLossRegistry := Function.update st.stopLossRegistry slot ⟨sells.2, buys.2⟩ }
        (sells.1 ++ buys.1) = st' at *
    have hleft : ∀ slot' side, ∀ stop ∈ st'.stopsAt slot' side,
        stop ∈ st.stopsAt slot' side := by
      intro slot' side stop hstop
      rcases eq_or_ne slot' slot with rfl | hne
      · cases side with
        | sell =>
          simp only [stopsAt, hregistry, Function.update_self] at hstop
          exact mem_takeStops.2 (hsells ▸ hstop)
        | buy =>
          simp only [stopsAt, hregistry, Function.update_self] at hstop
          exact mem_takeStops.2 (hbuys ▸ hstop)
      · cases side <;>
          simpa only [stopsAt, hregistry, Function.update_of_ne hne] using hstop
    refine ⟨htable, hleft, fun slot' side stop hstop => ?_, by simp only [hseen], new, hnew,
      fun d hd => ?_⟩
    · have hown := hf slot' side stop (hleft slot' side stop hstop)
      rw [← hfind] at hown
      exact hown
    · obtain ⟨hclient, hsymbol⟩ := hmem d hd
      have htaken : (∃ side, d.client ∈ st.stopsAt slot side) ∧ Hit d.client currentLtp := by
        rcases List.mem_append.1 hclient with hclient | hclient
        · obtain ⟨hstop, hhit⟩ := mem_takeStops.1 (hsells ▸ hclient)
          refine ⟨⟨.sell, hstop⟩, ?_⟩
          rw [Hit, (hf slot .sell _ hstop).1]
          simpa using hhit
        · obtain ⟨hstop, hhit⟩ := mem_takeStops.1 (hbuys ▸ hclient)
          refine ⟨⟨.buy, hstop⟩, ?_⟩
          rw [Hit, (hf slot .buy _ hstop).1]
          simpa using hhit
      obtain ⟨side, hside⟩ := htaken.1
      exact ⟨hchanged, htaken.1, htaken.2, hsymbol.trans (hf slot side _ hside).2.1.symm⟩
  · refine ⟨rfl, fun _ _ _ hstop => hstop, hf, ?_, [], (List.append_nil _).symm, by simp⟩
    rw [not_not.1 hchanged, Function.update_eq_self]

end Oms

namespace System

variable {std : StdHeap ClientOrder} {sys sys' : System} {a : Action}

/-! ## Soundness -/

/-- For every stop that has been dispatched there has been a trade in its symbol whose price
reaches its trigger. -/
def StopsSound (sys : System) : Prop :=
  ∀ d ∈ sys.oms.dispatched, d.site = .stopLoss →
    ∃ t ∈ sys.executed, t.symbolId = d.order.symbolId ∧ Hit d.client t.price

/-- The trade whose price has led from `sys` to the dispatch of a stop is in the stop's own
symbol. -/
def OwnTrigger (sys sys' : System) : Prop :=
  ∀ d ∈ sys'.oms.dispatched.drop sys.oms.dispatched.length, d.site = .stopLoss →
    ∃ t, sys.lastTrade (d.order.symbolId % maxSymbols) = some t ∧
      t.symbolId = d.order.symbolId ∧ Hit d.client t.price

/-- The price in a slot, if the system has not seen it, reaches only stops of the symbol that
has made the last trade of the slot. -/
def OwnPriceAt (sys : System) (slot : ℕ) : Prop :=
  sys.lastPrice slot ≠ sys.oms.lastSeenPrice slot → ∀ t ∈ sys.lastTrade slot,
    ∀ stop ∈ sys.oms.stopsAt slot .sell ++ sys.oms.stopsAt slot .buy,
      Hit stop (sys.lastPrice slot) → stop.symbolId = t.symbolId

instance (sys : System) (slot : ℕ) : Decidable (OwnPriceAt sys slot) :=
  inferInstanceAs (Decidable (_ → _))

/-- The slot that an action looks at. -/
def slotOf (sys : System) (a : Action) : Option ℕ :=
  match a, sys.pc with
  | .poll, .poll slot => some slot
  | _, _ => none

/-- The looks of the system at slots are harmless. -/
def OwnPrice (sys : System) (a : Action) : Prop :=
  ∀ slot ∈ sys.slotOf a, OwnPriceAt sys slot

instance (sys : System) (a : Action) : Decidable (OwnPrice sys a) :=
  inferInstanceAs (Decidable (∀ slot ∈ _, _))

/-- The stops are filed, the prices in the slots are those of trades that have been made, and the
stops that have been dispatched have had their trades. -/
structure Inv (sys : System) : Prop where
  filed : sys.oms.Filed
  noTrade : ∀ slot, sys.lastTrade slot = none →
    sys.lastPrice slot = 0 ∧ sys.oms.lastSeenPrice slot = 0
  lastTrade : ∀ slot t, sys.lastTrade slot = some t →
    t ∈ sys.executed ∧ sys.lastPrice slot = t.price ∧ t.symbolId % maxSymbols = slot
  unstored : ∀ i t, (sys.groups i).unstored = some t → t ∈ sys.executed
  sound : StopsSound sys

theorem inv_start (symbolLookupTable : ℕ → ℤ) (bootTimestamp : ℕ)
    (clock uninit : ℕ → ℕ) (groups : ℕ → GroupProcessor) :
    Inv (start (.init symbolLookupTable bootTimestamp clock uninit) groups) where
  filed slot side stop h := by cases side <;> simp [start, Oms.init, Oms.stopsAt] at h
  noTrade _ _ := ⟨rfl, rfl⟩
  lastTrade slot t h := by simp [start] at h
  unstored i t h := by simp [start] at h
  sound d h := by simp [start, Oms.init] at h

/-- A step of a group's thread, or of `dispatch_order`, dispatches nothing. -/
theorem ownTrigger_of_oms_eq (h : sys'.oms = sys.oms) : OwnTrigger sys sys' := by
  intro d hd
  rw [h, List.drop_length] at hd
  exact absurd hd List.not_mem_nil

/-- A step of the first thread. -/
theorem Inv.goOn (h : Inv sys) {oms : Oms} (pc : OmsPc) (hfiled : oms.Filed)
    (hseen : ∀ slot, sys.lastTrade slot = none → oms.lastSeenPrice slot = 0)
    (hnew : ∃ new, oms.dispatched = sys.oms.dispatched ++ new ∧
      ∀ d ∈ new, d.site = .stopLoss →
      ∃ t, sys.lastTrade (d.order.symbolId % maxSymbols) = some t ∧
        t.symbolId = d.order.symbolId ∧ Hit d.client t.price) :
    Inv (sys.goOn oms pc) ∧ OwnTrigger sys (sys.goOn oms pc) := by
  obtain ⟨new, hdispatched, hown⟩ := hnew
  refine ⟨⟨hfiled, fun slot hslot => ⟨(h.noTrade slot hslot).1, hseen slot hslot⟩,
    h.lastTrade, h.unstored, fun d hd hsite => ?_⟩, fun d hd hsite => ?_⟩
  · change d ∈ oms.dispatched at hd
    rw [hdispatched] at hd
    rcases List.mem_append.1 hd with hd | hd
    · exact h.sound d hd hsite
    · obtain ⟨t, ht, hsymbol, hhit⟩ := hown d hd hsite
      exact ⟨t, (h.lastTrade _ t ht).1, hsymbol, hhit⟩
  · change d ∈ oms.dispatched.drop _ at hd
    rw [hdispatched, List.drop_left] at hd
    exact hown d hd hsite

theorem Inv.goOn_quiet (h : Inv sys) {oms : Oms} (pc : OmsPc) (hq : sys.oms.Quiet oms) :
    Inv (sys.goOn oms pc) ∧ OwnTrigger sys (sys.goOn oms pc) := by
  obtain ⟨new, hnew, hsite⟩ := hq.dispatched
  refine h.goOn pc (hq.filed h.filed) (fun slot hslot => ?_)
    ⟨new, hnew, fun d hd hstop => absurd hstop (hsite d hd)⟩
  rw [hq.lastSeen]
  exact (h.noTrade slot hslot).2

/-- A look at a slot. -/
theorem Inv.pollPrice (h : Inv sys) {slot : ℕ} (hown : OwnPriceAt sys slot) (pc : OmsPc) :
    Inv (sys.goOn (sys.oms.pollPrice std slot (sys.lastPrice slot)) pc) ∧
      OwnTrigger sys (sys.goOn (sys.oms.pollPrice std slot (sys.lastPrice slot)) pc) := by
  have hp := Oms.polled_pollPrice std h.filed slot (sys.lastPrice slot)
  obtain ⟨new, hnew, hmem⟩ := hp.dispatched
  refine h.goOn pc hp.filed (fun slot' hslot => ?_) ⟨new, hnew, fun d hd _ => ?_⟩
  · obtain ⟨hprice, hseen⟩ := h.noTrade slot' hslot
    rw [hp.lastSeen]
    rcases eq_or_ne slot' slot with rfl | hne
    · rw [Function.update_self, hprice]
    · rw [Function.update_of_ne hne, hseen]
  · obtain ⟨hchanged, ⟨side, hside⟩, hhit, hsymbol⟩ := hmem d hd
    -- a slot without a trade has its first price
    cases htrade : sys.lastTrade slot with
    | none =>
      obtain ⟨hprice, hseen⟩ := h.noTrade slot htrade
      exact absurd (hprice.trans hseen.symm) hchanged
    | some t =>
      have hstop : d.client ∈ sys.oms.stopsAt slot .sell ++ sys.oms.stopsAt slot .buy := by
        cases side with
        | sell => exact List.mem_append_left _ hside
        | buy => exact List.mem_append_right _ hside
      have heq := hown hchanged t htrade d.client hstop hhit
      obtain ⟨-, hprice, hslot⟩ := h.lastTrade slot t htrade
      rw [hsymbol, heq, hslot]
      exact ⟨t, htrade, rfl, hprice ▸ hhit⟩

/-- What the first thread does in a step : it takes an order, reads a trade or looks at a slot,
or finds nothing. -/
theorem omsStep_cases (hstep : sys.omsStep std a = some sys') :
    ∃ oms pc, sys' = sys.goOn oms pc ∧ (oms = sys.oms ∨
      (∃ newOrder, a = .receive (some newOrder) ∧ oms = sys.oms.receive std newOrder) ∨
      (∃ t, a = .consume (some t) ∧ sys.oms.checkFill t = .ok oms) ∨
      ∃ slot, sys.slotOf a = some slot ∧
        oms = sys.oms.pollPrice std slot (sys.lastPrice slot)) := by
  cases a with
  | receive newOrder =>
    simp only [System.omsStep] at hstep
    split at hstep
    next newOrder hpc =>
      exact ⟨_, _, (Option.some.inj hstep).symm, Or.inr (Or.inl ⟨newOrder, rfl, rfl⟩)⟩
    next => exact ⟨_, _, (Option.some.inj hstep).symm, Or.inl rfl⟩
    next => cases hstep
  | consume trade =>
    simp only [System.omsStep] at hstep
    split at hstep
    next g t hpc =>
      obtain ⟨oms, homs, rfl⟩ := Option.map_eq_some_iff.1 hstep
      exact ⟨oms, _, rfl, Or.inr (Or.inr (Or.inl ⟨t, rfl, ok_of_toOption homs⟩))⟩
    next => exact ⟨_, _, (Option.some.inj hstep).symm, Or.inl rfl⟩
    next => cases hstep
  | poll =>
    simp only [System.omsStep] at hstep
    split at hstep
    next slot hpc =>
      have hslot : sys.slotOf .poll = some slot := by simp [slotOf, hpc]
      exact ⟨_, _, (Option.some.inj hstep).symm,
        Or.inr (Or.inr (Or.inr ⟨slot, hslot, rfl⟩))⟩
    next => cases hstep
  | _ => cases hstep

theorem Inv.omsStep (h : Inv sys) (hown : OwnPrice sys a) (hstep : sys.omsStep std a = some sys') :
    Inv sys' ∧ OwnTrigger sys sys' := by
  obtain ⟨oms, pc, rfl, hcase⟩ := omsStep_cases hstep
  rcases hcase with rfl | ⟨newOrder, -, rfl⟩ | ⟨t, -, hok⟩ | ⟨slot, hslot, rfl⟩
  · exact h.goOn_quiet pc (.refl _)
  · rcases Oms.receive_cases std sys.oms newOrder with hq | hstop
    · exact h.goOn_quiet pc hq
    · rw [hstop]
      exact h.goOn pc (h.filed.registerStopLoss rfl) (fun slot hslot => (h.noTrade slot hslot).2)
        ⟨[], (List.append_nil _).symm, by simp⟩
  · exact h.goOn_quiet pc (Oms.quiet_checkFill hok)
  · exact h.pollPrice (hown slot hslot) pc

/-! ## Steps of the groups -/

/-- A step that neither changes the first thread nor stores a price. -/
structure Internal (sys sys' : System) : Prop where
  oms : sys'.oms = sys.oms
  lastPrice : sys'.lastPrice = sys.lastPrice
  lastTrade : sys'.lastTrade = sys.lastTrade
  executed : ∀ t ∈ sys.executed, t ∈ sys'.executed
  unstored : ∀ i t, (sys'.groups i).unstored = some t →
    (sys.groups i).unstored = some t ∨ t ∈ sys'.executed

/-- A group changes, but for the trade whose price is to be stored. -/
theorem internal_of_update {i : ℕ} {g : GroupThread}
    (hgroups : sys'.groups = Function.update sys.groups i g)
    (hg : g.unstored = (sys.groups i).unstored) (homs : sys'.oms = sys.oms)
    (hprice : sys'.lastPrice = sys.lastPrice) (htrade : sys'.lastTrade = sys.lastTrade)
    (hexecuted : sys'.executed = sys.executed) : Internal sys sys' := by
  refine ⟨homs, hprice, htrade, fun _ ht => hexecuted ▸ ht, fun j t ht => Or.inl ?_⟩
  rw [hgroups] at ht
  rcases eq_or_ne j i with rfl | hne
  · rwa [Function.update_self, hg] at ht
  · rwa [Function.update_of_ne hne] at ht

theorem internal_enqueue (hstep : sys.enqueue = some sys') : Internal sys sys' := by
  rw [enqueue] at hstep
  split at hstep
  next => cases hstep
  next order outbox hbox =>
    simp only at hstep
    split at hstep
    next => cases hstep
    next accepted queue hpush =>
      cases hstep
      exact internal_of_update rfl rfl rfl rfl rfl rfl

theorem internal_take {i : ℕ} (hstep : sys.take i = some sys') : Internal sys sys' := by
  simp only [take] at hstep
  split_ifs at hstep
  split at hstep
  next => cases hstep
  next processor hproc =>
    cases hstep
    exact internal_of_update rfl rfl rfl rfl rfl rfl

theorem internal_fault {i : ℕ} {published : List Trade}
    (hstep : sys.fault i published = some sys') : Internal sys sys' := by
  simp only [fault] at hstep
  split_ifs at hstep
  split at hstep
  next order _ _ hpop =>
    split_ifs at hstep
    cases hstep
    exact internal_of_update rfl rfl rfl rfl rfl rfl
  next => cases hstep

theorem internal_publish {i : ℕ} (hstep : sys.publish i = some sys') : Internal sys sys' := by
  simp only [publish] at hstep
  split at hstep
  next t pending hpending hunstored =>
    cases hstep
    refine ⟨rfl, rfl, rfl, fun t' ht' => List.mem_append_left _ ht', fun j t' ht' => ?_⟩
    simp only [setGroup] at ht' ⊢
    rcases eq_or_ne j i with rfl | hne
    · rw [Function.update_self, Option.some.injEq] at ht'
      exact Or.inr (List.mem_append_right _ (List.mem_singleton.2 ht'.symm))
    · rw [Function.update_of_ne hne] at ht'
      exact Or.inl ht'
  next => cases hstep

/-- A step is one of a group or of `dispatch_order`, or it stores a price, or the first thread
makes it. -/
theorem step_cases (hstep : sys.step std a = some sys') : Internal sys sys' ∨
    (∃ i, a = .store i ∧ sys.store i = some sys') ∨ sys.omsStep std a = some sys' := by
  cases a with
  | enqueue => exact Or.inl (internal_enqueue hstep)
  | take i => exact Or.inl (internal_take hstep)
  | fault i published => exact Or.inl (internal_fault hstep)
  | publish i => exact Or.inl (internal_publish hstep)
  | store i => exact Or.inr (Or.inl ⟨i, rfl, hstep⟩)
  | _ =>
    simp only [System.step] at hstep
    split_ifs at hstep
    exact Or.inr (Or.inr hstep)

theorem Inv.of_internal (h : Inv sys) (hi : Internal sys sys') :
    Inv sys' ∧ OwnTrigger sys sys' := by
  refine ⟨⟨hi.oms ▸ h.filed, ?_, fun slot t ht => ?_, fun i t ht => ?_,
    fun d hd hsite => ?_⟩, ownTrigger_of_oms_eq hi.oms⟩
  · rw [hi.lastTrade, hi.lastPrice, hi.oms]
    exact h.noTrade
  · rw [hi.lastTrade] at ht
    obtain ⟨hmem, hslot⟩ := h.lastTrade slot t ht
    exact ⟨hi.executed t hmem, hi.lastPrice ▸ hslot⟩
  · exact (hi.unstored i t ht).elim (fun h' => hi.executed t (h.unstored i t h')) fun h' => h'
  · rw [hi.oms] at hd
    obtain ⟨t, ht, hown⟩ := h.sound d hd hsite
    exact ⟨t, hi.executed t ht, hown⟩

theorem Inv.store {i : ℕ} (h : Inv sys) (hstep : sys.store i = some sys') :
    Inv sys' ∧ OwnTrigger sys sys' := by
  simp only [System.store] at hstep
  split at hstep
  next t hunstored =>
    cases hstep
    refine ⟨⟨h.filed, fun slot hslot => ?_, fun slot t' ht' => ?_, fun j t' ht' => ?_,
      h.sound⟩, ownTrigger_of_oms_eq rfl⟩
    · simp only at hslot ⊢
      rcases eq_or_ne slot (t.symbolId % maxSymbols) with rfl | hne
      · simp at hslot
      · rw [Function.update_of_ne hne] at hslot ⊢
        exact h.noTrade slot hslot
    · simp only at ht' ⊢
      rcases eq_or_ne slot (t.symbolId % maxSymbols) with rfl | hne
      · rw [Function.update_self, Option.some.injEq] at ht'
        subst ht'
        exact ⟨h.unstored i t hunstored, Function.update_self .., rfl⟩
      · rw [Function.update_of_ne hne] at ht' ⊢
        exact h.lastTrade slot t' ht'
    · simp only [setGroup] at ht'
      rcases eq_or_ne j i with rfl | hne
      · simp at ht'
      · rw [Function.update_of_ne hne] at ht'
        exact h.unstored j t' ht'
  next => cases hstep

theorem Inv.step (h : Inv sys) (hown : OwnPrice sys a) (hstep : sys.step std a = some sys') :
    Inv sys' ∧ OwnTrigger sys sys' := by
  rcases step_cases hstep with hi | ⟨i, rfl, hstore⟩ | homs
  · exact h.of_internal hi
  · exact h.store hstore
  · exact h.omsStep hown homs

/-- In every run whose looks at slots meet `OwnPrice`, stops are dispatched for trades in their
own symbols only. -/
theorem run_stopsSound (std : StdHeap ClientOrder) (symbolLookupTable : ℕ → ℤ)
    (bootTimestamp : ℕ) (clock uninit : ℕ → ℕ) (groups : ℕ → GroupProcessor)
    (actions : List Action)
    (hown : Runs.Always (fun sys a sys' => sys.step std a = some sys') OwnPrice
      (start (.init symbolLookupTable bootTimestamp clock uninit) groups) actions)
    (hrun : (start (.init symbolLookupTable bootTimestamp clock uninit) groups).run std actions =
      some sys) :
    StopsSound sys ∧ ∀ pre a post sys₁ sys₂, actions = pre ++ a :: post →
      (start (.init symbolLookupTable bootTimestamp clock uninit) groups).run std pre =
      some sys₁ → sys₁.step std a = some sys₂ → OwnTrigger sys₁ sys₂ := by
  have hinv : ∀ {l : List Action} {sys : System}, Runs.Always _ OwnPrice _ l →
      (start (.init symbolLookupTable bootTimestamp clock uninit) groups).run std l = some sys →
      Inv sys := fun hl hsys =>
    Runs.Steps.invariant (fun h hown hstep => (h.step hown hstep).1) (inv_start _ _ _ _ _) hl
      (Runs.steps_iff_some.2 hsys)
  refine ⟨(hinv hown hrun).sound, fun pre a post sys₁ sys₂ heq hpre hstep => ?_⟩
  subst heq
  exact ((hinv hown.left hpre).step (hown pre a post sys₁ rfl (Runs.steps_iff_some.2 hpre))
    hstep).2

/-! ## Two symbols of one slot -/

/-- The system has seen all prices. -/
def Seen (sys : System) : Prop :=
  ∀ slot, sys.lastPrice slot = sys.oms.lastSeenPrice slot

theorem Seen.ownPrice (h : Seen sys) : OwnPrice sys a :=
  fun slot _ hne => absurd (h slot) hne

/-- A look at a slot whose price has been seen. -/
theorem Seen.step_poll (h : Seen sys) (hbox : sys.outbox = []) {slot : ℕ}
    (hpc : sys.pc = .poll slot) : sys.step std .poll = some { sys with pc := afterPoll slot } := by
  have hpoll : sys.oms.pollPrice std slot (sys.lastPrice slot) = sys.oms := by
    rw [Oms.pollPrice, if_neg (not_not.2 (h slot))]
  simp only [System.step, hbox, if_true, omsStep, hpc, hpoll, System.goOn, List.drop_length,
    List.map_nil]

theorem Seen.polls : ∀ {sys : System}, Seen sys →
    ∀ (n : ℕ) {slot : ℕ}, sys.outbox = [] →
    sys.pc = .poll slot → slot + n + 1 = maxSymbols →
    Runs.Steps (fun sys a sys' => System.step std sys a = some sys') (List.replicate (n + 1) .poll)
      sys { sys with pc := .receive }
  | sys, h, 0, slot, hbox, hpc, hn => by
    have hlast : afterPoll slot = .receive := if_neg (by omega)
    exact ⟨_, h.step_poll hbox hpc, by rw [hlast]; rfl⟩
  | sys, h, n + 1, slot, hbox, hpc, hn => by
    have hnext : afterPoll slot = .poll (slot + 1) := if_pos (by omega)
    have hseen : Seen { sys with pc := .poll (slot + 1) } := h
    refine ⟨_, h.step_poll hbox hpc, ?_⟩
    rw [hnext]
    exact hseen.polls n hbox rfl (by omega)

/-- The rest of a round of the first thread, when there is nothing for it. -/
def round : List Action :=
  [.consume none, .consume none] ++ List.replicate maxSymbols .poll

theorem Seen.round (h : Seen sys) (hbox : sys.outbox = []) (hpc : sys.pc = .consume 0) :
    Runs.Steps (fun sys a sys' => System.step std sys a = some sys') round
      sys { sys with pc := .receive } := by
  have hstep : ∀ {sys : System} {g : ℕ}, sys.outbox = [] → sys.pc = .consume g →
      sys.step std (.consume none) = some { sys with pc := afterConsume g } := by
    intro sys g hbox hpc
    simp only [System.step, hbox, if_true, omsStep, hpc, System.goOn, List.drop_length,
      List.map_nil]
  have hseen : Seen { sys with pc := .poll 0 } := h
  exact ⟨_, hstep hbox hpc, _, hstep (g := 1) hbox rfl, hseen.polls 1023 hbox rfl rfl⟩

theorem round_quiet : ∀ a ∈ round, ∀ i, a ≠ .store i := by
  intro a ha i
  simp only [round, List.mem_append, List.mem_cons, List.not_mem_nil, or_false, or_self,
    List.mem_replicate] at ha
  rcases ha with rfl | ⟨-, rfl⟩ <;> nofun

theorem Seen.of_internal (h : Seen sys) (hi : Internal sys sys') : Seen sys' := by
  intro slot
  rw [hi.lastPrice, hi.oms]
  exact h slot

theorem Seen.goOn (h : Seen sys) {oms : Oms} (pc : OmsPc)
    (hseen : oms.lastSeenPrice = sys.oms.lastSeenPrice) : Seen (sys.goOn oms pc) := by
  intro slot
  exact (h slot).trans (congrFun hseen slot).symm

/-- Only a store brings a new price. -/
theorem Seen.step (h : Seen sys) (ha : ∀ i, a ≠ .store i) (hstep : sys.step std a = some sys') :
    Seen sys' := by
  rcases step_cases hstep with hi | ⟨i, rfl, -⟩ | homs
  · exact h.of_internal hi
  · exact absurd rfl (ha i)
  · obtain ⟨oms, pc, rfl, hcase⟩ := omsStep_cases homs
    refine h.goOn pc ?_
    rcases hcase with rfl | ⟨newOrder, -, rfl⟩ | ⟨t, -, hok⟩ | ⟨slot, -, rfl⟩
    · rfl
    · rcases Oms.receive_cases std sys.oms newOrder with hq | hstop
      · exact hq.lastSeen
      · rw [hstop]
        rfl
    · exact (Oms.quiet_checkFill hok).lastSeen
    · rw [Oms.pollPrice, if_neg (not_not.2 (h slot))]

/-- Until a price is stored, the looks at slots are harmless. -/
theorem Seen.run {actions : List Action} (h : Seen sys)
    (ha : ∀ a ∈ actions, ∀ i, a ≠ .store i) :
    Runs.Always (fun sys a sys' => System.step std sys a = some sys') OwnPrice sys actions ∧
      ∀ sys', Runs.Steps (fun sys a sys' => System.step std sys a = some sys') actions sys
        sys' → Seen sys' := by
  induction actions generalizing sys with
  | nil => exact ⟨.nil _, fun sys' hsys' => (show sys = sys' from hsys') ▸ h⟩
  | cons a actions ih =>
    have hnext := fun sys' (hstep : sys.step std a = some sys') =>
      ih (h.step (ha a List.mem_cons_self) hstep) fun a' ha' => ha a' (List.mem_cons_of_mem _ ha')
    refine ⟨.cons h.ownPrice fun sys' hstep => (hnext sys' hstep).1, fun sys' hsteps => ?_⟩
    obtain ⟨sys₁, hstep, hsteps⟩ := hsteps
    exact (hnext sys₁ hstep).2 sys' hsteps

/-- Orders without a store, and the rest of the round, which finds nothing. -/
theorem Seen.run_round {actions : List Action} (h : Seen sys)
    (hquiet : ∀ a ∈ actions, ∀ i, a ≠ .store i) (hrun : sys.run std actions = some sys')
    (hbox : sys'.outbox = []) (hpc : sys'.pc = .consume 0) :
    sys.run std (actions ++ System.round) = some { sys' with pc := .receive } ∧
      Seen { sys' with pc := .receive } := by
  have hsteps := Runs.steps_iff_some.2 hrun
  have hseen : Seen sys' := (h.run hquiet).2 sys' hsteps
  exact ⟨Runs.steps_iff_some.1 (Runs.steps_append.2 ⟨sys', hsteps, hseen.round hbox hpc⟩),
    hseen⟩

/-- `AAPL` has the id 1 and `TSLA` the id 1025. -/
def twoSymbolTable (hash : ℕ) : ℤ :=
  if hash = Oms.findHash [65, 65, 80, 76] then 1
  else if hash = Oms.findHash [84, 83, 76, 65] then 1025
  else -1

/-- A client order for five units at 100. -/
def clientOrder (clientOrderId : ℕ) (symbol : List UInt8) (type : OrderType)
    (executionType : ClientOrderType) : ClientOrder :=
  ⟨clientOrderId, 100, 100, symbol, 0, 0, type, 5, 0, 0, executionType, true⟩

/-- A stop in `AAPL`. -/
def stopActions : List Action :=
  [.receive (some (clientOrder 1 [65, 65, 80, 76] .sell .stopLoss))]

/-- A sell that rests. -/
def sellActions (symbol : List UInt8) : List Action :=
  [.receive (some (clientOrder 2 symbol .sell .limit)), .enqueue]

/-- A buy that trades with the sell, and a look at the first two slots. -/
def buyActions (symbol : List UInt8) (i : Fin groupCount) : List Action :=
  [.receive (some (clientOrder 3 symbol .buy .limit)), .enqueue, .take i, .take i, .publish i,
    .store i, .consume none, .consume none, .poll, .poll]

/-- A stop in `AAPL`, and a trade in a symbol. -/
def session (symbol : List UInt8) (i : Fin groupCount) : List Action :=
  stopActions ++ round ++ (sellActions symbol ++ round) ++ buyActions symbol i

/-- Memory that is zero. -/
def zeroStorage : Storage :=
  ⟨fun _ => ⟨⟨0, .market, 0, 0, 0, .buy, 0, 0, 0⟩, 0, 0⟩, fun _ => 0⟩

/-- The engine, with bands from 95 to 105. -/
def initialDispatcher : Except Fault MatchingEngineDispatcher :=
  MatchingEngineDispatcher.initializeEngine (fun _ => ⟨0, .market, 0, 0, 0, .buy, 0, 0, 0⟩) 4
    (fun _ => zeroStorage) (fun _ => 95) (fun _ => 105) []

/-- The system with two symbols, on the groups of an engine. -/
def sessionStart (d : MatchingEngineDispatcher) : System :=
  start (.init twoSymbolTable 0 (fun n => n) fun n => n) d.groups

/-- The states before the rounds of a session, and the end. -/
def sessionStates (symbol : List UInt8) (i : Fin groupCount) (sys : System) :
    Option (System × System × System) := do
  let sys₁ ← sys.run (.sorting _) stopActions
  let sys₂ ← { sys₁ with pc := OmsPc.receive }.run (.sorting _) (sellActions symbol)
  let sys₃ ← { sys₂ with pc := OmsPc.receive }.run (.sorting _) (buyActions symbol i)
  some (sys₁, sys₂, sys₃)

/-- A session goes through the states of `sessionStates`, since its rounds find nothing, and
only its last looks can do harm. -/
theorem run_session {symbol : List UInt8} {i : Fin groupCount} {sys₁ sys₂ sys₃ : System}
    (h : Seen sys) (hstates : sessionStates symbol i sys = some (sys₁, sys₂, sys₃))
    (h₁ : sys₁.pc = .consume 0 ∧ sys₁.outbox = [])
    (h₂ : sys₂.pc = .consume 0 ∧ sys₂.outbox = []) :
    sys.run (.sorting _) (session symbol i) = some sys₃ ∧
      (Runs.allowed (System.step (.sorting _)) OwnPrice { sys₂ with pc := .receive }
          (buyActions symbol i) = true →
        Runs.Always (fun sys a sys' => System.step (.sorting _) sys a = some sys') OwnPrice sys
          (session symbol i)) := by
  simp only [sessionStates, Option.bind_eq_bind, Option.bind_eq_some_iff, Option.some.injEq,
    Prod.mk.injEq] at hstates
  obtain ⟨sys₁, hstop, sys₂, hsell, sys₃, hbuy, rfl, rfl, rfl⟩ := hstates
  have hquiet₁ : ∀ a ∈ stopActions, ∀ i, a ≠ .store i := by simp [stopActions]
  have hquiet₂ : ∀ a ∈ sellActions symbol, ∀ i, a ≠ .store i := by simp [sellActions]
  have hquiet : ∀ a ∈ stopActions ++ round ++ (sellActions symbol ++ round), ∀ i,
      a ≠ .store i := by
    simp only [List.forall_mem_append]
    exact ⟨⟨hquiet₁, round_quiet⟩, hquiet₂, round_quiet⟩
  have hseen₁ : Seen sys₁ := (h.run hquiet₁).2 _ (Runs.steps_iff_some.2 hstop)
  have hseen₁' : Seen { sys₁ with pc := OmsPc.receive } := hseen₁
  have hseen₂ : Seen sys₂ := (hseen₁'.run hquiet₂).2 _ (Runs.steps_iff_some.2 hsell)
  have hsteps : Runs.Steps (fun sys a sys' => System.step (.sorting _) sys a = some sys')
      (stopActions ++ round ++ (sellActions symbol ++ round)) sys { sys₂ with pc := .receive } :=
    Runs.steps_append.2 ⟨_, Runs.steps_append.2 ⟨_, Runs.steps_iff_some.2 hstop,
      hseen₁.round h₁.2 h₁.1⟩, Runs.steps_append.2 ⟨_, Runs.steps_iff_some.2 hsell,
      hseen₂.round h₂.2 h₂.1⟩⟩
  refine ⟨Runs.steps_iff_some.1 (Runs.steps_append.2 ⟨_, hsteps, Runs.steps_iff_some.2 hbuy⟩),
    fun hallowed => (h.run hquiet).1.append fun sys' hsys' => ?_⟩
  have heq := (Runs.steps_iff_some.1 hsys').symm.trans (Runs.steps_iff_some.1 hsteps)
  rw [Option.some.inj heq]
  exact Runs.always_of_allowed hallowed

/-- What is seen of a session : that its rounds can begin, whether its last looks are harmless,
the orders that have been dispatched, and the symbols that have traded. -/
def sessionView (symbol : List UInt8) (i : Fin groupCount) : Option
    (Bool × Bool × List (DispatchSite × ℕ) × List ℕ) := do
  let d ← initialDispatcher.toOption
  let (sys₁, sys₂, sys₃) ← sessionStates symbol i (sessionStart d)
  some (decide ((sys₁.pc = .consume 0 ∧ sys₁.outbox = []) ∧
      sys₂.pc = .consume 0 ∧ sys₂.outbox = []),
    Runs.allowed (System.step (.sorting _)) OwnPrice { sys₂ with pc := .receive }
      (buyActions symbol i),
    sys₃.oms.dispatched.map fun d => (d.site, d.order.symbolId),
    sys₃.executed.map fun t => t.symbolId)

/-- A session that runs as it is seen. -/
theorem of_sessionView {symbol : List UInt8} {i : Fin groupCount} {harmless : Bool}
    {dispatched : List (DispatchSite × ℕ)} {executed : List ℕ}
    (h : sessionView symbol i = some (true, harmless, dispatched, executed)) :
    ∃ d sys, initialDispatcher = .ok d ∧ (sessionStart d).run (.sorting _)
      (session symbol i) = some sys ∧
      (harmless = true → Runs.Always (fun sys a sys' => System.step (.sorting _) sys a =
        some sys') OwnPrice (sessionStart d) (session symbol i)) ∧
      (sys.oms.dispatched.map fun d => (d.site, d.order.symbolId)) = dispatched ∧
      (sys.executed.map fun t => t.symbolId) = executed := by
  simp only [sessionView, Option.bind_eq_bind, Option.bind_eq_some_iff, Option.some.injEq,
    Prod.mk.injEq, decide_eq_true_eq] at h
  obtain ⟨d, hd, ⟨sys₁, sys₂, sys₃⟩, hstates, ⟨h₁, h₂⟩, hallowed, hdispatched,
    hexecuted⟩ := h
  have hseen : Seen (sessionStart d) := fun _ => rfl
  obtain ⟨hrun, halways⟩ := run_session hseen hstates h₁ h₂
  exact ⟨d, sys₃, ok_of_toOption hd, hrun, fun hh => halways (hallowed.trans hh), hdispatched,
    hexecuted⟩

theorem session_crossed : sessionView [84, 83, 76, 65] ⟨1, by decide⟩ =
    some (true, false, [(.limit, 1025), (.limit, 1025), (.stopLoss, 1)], [1025]) := by
  decide +kernel

/-- A trade in `TSLA` triggers the stop in `AAPL`. -/
theorem stop_crossed : ∃ d sys, initialDispatcher = .ok d ∧
    (sessionStart d).run (.sorting _) (session [84, 83, 76, 65] ⟨1, by decide⟩) = some sys ∧
    (∃ stop ∈ sys.oms.dispatched, stop.site = .stopLoss ∧ stop.order.symbolId = 1) ∧
    (∀ t ∈ sys.executed, t.symbolId = 1025) ∧ ¬ StopsSound sys := by
  obtain ⟨d, sys, hd, hrun, -, hdispatched, hexecuted⟩ := of_sessionView session_crossed
  have hstop : ∃ stop ∈ sys.oms.dispatched, stop.site = .stopLoss ∧
      stop.order.symbolId = 1 := by
    have hmem : (DispatchSite.stopLoss, 1) ∈ sys.oms.dispatched.map fun d => (d.site,
        d.order.symbolId) := by
      rw [hdispatched]
      decide
    simpa using hmem
  have hother : ∀ t ∈ sys.executed, t.symbolId = 1025 := fun t ht => by
    have hmem := List.mem_map_of_mem (f := fun t : Trade => t.symbolId) ht
    rw [hexecuted] at hmem
    exact List.mem_singleton.1 hmem
  refine ⟨d, sys, hd, hrun, hstop, hother, fun hsound => ?_⟩
  obtain ⟨stop, hmem, hsite, hsymbol⟩ := hstop
  obtain ⟨t, ht, hown, -⟩ := hsound stop hmem hsite
  exact absurd (hown.symm.trans (hother t ht)) (by rw [hsymbol]; decide)

theorem session_own : sessionView [65, 65, 80, 76] ⟨0, by decide⟩ =
    some (true, true, [(.limit, 1), (.limit, 1), (.stopLoss, 1)], [1]) := by
  decide +kernel

/-- A trade in `AAPL` triggers it too, and is its own. -/
theorem run_stopsSound_session : ∃ d sys, initialDispatcher = .ok d ∧
    (sessionStart d).run (.sorting _) (session [65, 65, 80, 76] ⟨0, by decide⟩) = some sys ∧
    (sys.oms.dispatched.map fun d => (d.site, d.order.symbolId)) =
      [(.limit, 1), (.limit, 1), (.stopLoss, 1)] ∧
    (sys.executed.map fun t => t.symbolId) = [1] ∧ StopsSound sys := by
  obtain ⟨d, sys, hd, hrun, halways, hdispatched, hexecuted⟩ := of_sessionView session_own
  exact ⟨d, sys, hd, hrun, hdispatched, hexecuted,
    (run_stopsSound (.sorting _) twoSymbolTable 0 (fun n => n) (fun n => n) d.groups _ (halways rfl)
      hrun).1⟩

end System

end TradeX
