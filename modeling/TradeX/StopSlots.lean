import TradeX.OrderFlow

/-!
# Symbols with slots of their own

The prices and the stops are kept in 1024 slots for 2048 symbols. As long as no two of the known
symbols that are ordered share a slot, a slot has the prices and the stops of one symbol only :
the orders that the system dispatches, the trades that the groups make of them and the stops are
all of symbols that have been ordered (`Within`). So whenever the system looks at a slot, what it
finds there is harmless (`ownSlots_stopsSound`).
-/

namespace TradeX

namespace Oms

variable {std : StdHeap ClientOrder} {st st' : Oms} {S : Set ℕ}

/-- The icebergs, the stops and what has been dispatched are of symbols in `S`. -/
structure Within (S : Set ℕ) (st : Oms) : Prop where
  icebergs : ∀ id parent, st.activeIcebergs id = some parent → parent.isActive = true →
    parent.symbolId ∈ S
  stops : ∀ slot side, ∀ stop ∈ st.stopsAt slot side, stop.symbolId ∈ S
  dispatched : ∀ d ∈ st.dispatched, d.order.symbolId ∈ S

theorem within_init (symbolLookupTable : ℕ → ℤ) (bootTimestamp : ℕ)
    (clock uninit : ℕ → ℕ) :
    Within S (init symbolLookupTable bootTimestamp clock uninit) where
  icebergs _ _ h := by cases h
  stops slot side stop h := by cases side <;> simp [init, stopsAt] at h
  dispatched := List.forall_mem_nil _

theorem Within.iceberg (h : Within S st) (id : ℕ) (hactive : (st.iceberg id).isActive = true) :
    (st.iceberg id).symbolId ∈ S := by
  unfold Oms.iceberg at hactive ⊢
  cases hget : st.activeIcebergs id with
  | none =>
    rw [hget] at hactive
    cases hactive
  | some parent =>
    rw [hget] at hactive
    exact h.icebergs id parent hget hactive

theorem Within.setIceberg (h : Within S st) (id : ℕ) {parent : ClientOrder}
    (hparent : parent.isActive = true → parent.symbolId ∈ S) :
    Within S (st.setIceberg id parent) := by
  refine ⟨fun id' parent' hget hactive => ?_, h.stops, h.dispatched⟩
  simp only [Oms.setIceberg] at hget
  rcases eq_or_ne id' id with rfl | hne
  · rw [Function.update_self, Option.some.injEq] at hget
    exact hget ▸ hparent (hget ▸ hactive)
  · rw [Function.update_of_ne hne] at hget
    exact h.icebergs id' parent' hget hactive

/-- An order of a symbol in `S` is dispatched. -/
theorem Within.dispatch (h : Within S st) {d : Dispatch} (hd : d.order.symbolId ∈ S)
    (hicebergs : st'.activeIcebergs = st.activeIcebergs)
    (hregistry : st'.stopLossRegistry = st.stopLossRegistry)
    (hdispatched : st'.dispatched = st.dispatched ++ [d]) : Within S st' := by
  refine ⟨hicebergs ▸ h.icebergs, fun slot side stop hstop => h.stops slot side stop ?_,
    fun d' hd' => ?_⟩
  · cases side <;> simpa only [stopsAt, hregistry] using hstop
  · rw [hdispatched] at hd'
    rcases List.mem_append.1 hd' with hd' | hd'
    · exact h.dispatched d' hd'
    · rw [List.mem_singleton.1 hd']
      exact hd

theorem Within.sendSlice (h : Within S st) (id : ℕ) : Within S (st.sendSlice id) := by
  have hset := h.setIceberg id (h.iceberg id)
  simp only [Oms.sendSlice]
  split_ifs with hactive
  · exact hset.setIceberg id fun hfalse => by cases hfalse
  · exact hset.dispatch (d := ⟨.slice, st.iceberg id, _⟩) (h.iceberg id hactive) rfl rfl rfl
  · exact hset

theorem Within.checkLeg (h : Within S st) {id q : ℕ} (hok : st.checkLeg id q = .ok st') :
    Within S st' := by
  simp only [Oms.checkLeg, Oms.processIcebergLeg] at hok
  split_ifs at hok
  · split at hok
    next =>
      cases hok
      exact h
    next parentId _ =>
      have hfilled : ∀ n, { st.iceberg parentId with filledQuantity := n }.isActive = true →
          { st.iceberg parentId with filledQuantity := n }.symbolId ∈ S :=
        fun _ => h.iceberg parentId
      have hset := h.setIceberg parentId (hfilled (add32 (st.iceberg parentId).filledQuantity q))
      split_ifs at hok
      · cases hok
        have hfreed : Within S { st.setIceberg parentId { st.iceberg parentId with
            filledQuantity := add32 (st.iceberg parentId).filledQuantity q } with
            childToParent := Function.update st.childToParent id none } :=
          ⟨hset.icebergs, hset.stops, hset.dispatched⟩
        exact hfreed.sendSlice parentId
      · cases hok
        exact hset
  · cases hok
    exact h

theorem Within.checkFill (h : Within S st) {t : Trade} (hok : st.checkFill t = .ok st') :
    Within S st' := by
  rw [Oms.checkFill] at hok
  split_ifs at hok
  · cases hok
    exact h
  · obtain ⟨st₁, hbuy, hsell⟩ := bind_eq_ok.1 hok
    exact (h.checkLeg hbuy).checkLeg hsell

/-- An order comes, for an unknown symbol or for one in `S`. -/
theorem Within.receive (h : Within S st) (std : StdHeap ClientOrder) {newOrder : ClientOrder}
    (hsymbol : st.findSymbolId newOrder.symbol ≠ 2 ^ 32 - 1 →
      st.findSymbolId newOrder.symbol ∈ S) : Within S (st.receive std newOrder) := by
  rw [Oms.receive]
  split_ifs with hknown
  · have hmem : (st.withSymbolId newOrder).symbolId ∈ S := hsymbol hknown
    split
    · exact (h.setIceberg _ fun _ => hmem).sendSlice _
    · refine ⟨h.icebergs, fun slot side stop hstop => ?_, h.dispatched⟩
      rcases mem_stopsAt_registerStopLoss hstop with hold | ⟨rfl, -⟩
      · exact h.stops slot side stop hold
      · exact hmem
    · exact h.dispatch (d := ⟨.market, st.withSymbolId newOrder, _⟩) hmem rfl rfl rfl
    · rw [sendLimit]
      split_ifs
      · exact h.dispatch (d := ⟨.limit, st.withSymbolId newOrder, _⟩) hmem rfl rfl rfl
      · exact h
  · exact h

theorem Within.pollPrice (h : Within S st) (std : StdHeap ClientOrder) (hf : Filed st)
    (slot currentLtp : ℕ) : Within S (st.pollPrice std slot currentLtp) := by
  have hp := polled_pollPrice std hf slot currentLtp
  obtain ⟨new, hnew, hmem⟩ := hp.dispatched
  refine ⟨fun id parent hget => h.icebergs id parent ?_,
    fun slot' side stop hstop => h.stops slot' side stop (hp.left slot' side stop hstop),
    fun d hd => ?_⟩
  · have hsame : (st.pollPrice std slot currentLtp).activeIcebergs = st.activeIcebergs := by
      rw [Oms.pollPrice]
      split_ifs
      · exact (triggerStops_keeps _ _).2
      · rfl
    exact hsame ▸ hget
  · rw [hnew] at hd
    rcases List.mem_append.1 hd with hd | hd
    · exact h.dispatched d hd
    · obtain ⟨-, ⟨side, hside⟩, -, hsymbol⟩ := hmem d hd
      rw [hsymbol]
      exact h.stops slot side d.client hside

end Oms

namespace System

variable {std : StdHeap ClientOrder} {sys sys' : System} {a : Action} {S : Set ℕ} {i : ℕ}

/-- What a group's thread has is of symbols in `S` : the orders in its queue, and the trades that
it has not published or whose price it has not stored. -/
structure GroupWithin (S : Set ℕ) (g : GroupThread) : Prop where
  queued : ∃ l, g.processor.groupQueue.Holds l ∧ ∀ o ∈ l, o.symbolId ∈ S
  pending : ∀ t ∈ g.pending, t.symbolId ∈ S
  unstored : ∀ t, g.unstored = some t → t.symbolId ∈ S

/-- All orders, stops and trades are of symbols in `S`. -/
structure Within (S : Set ℕ) (sys : System) : Prop where
  oms : sys.oms.Within S
  outbox : ∀ o ∈ sys.outbox, o.symbolId ∈ S
  groups : ∀ i < groupCount, GroupWithin S (sys.groups i)
  lastTrade : ∀ slot t, sys.lastTrade slot = some t → t.symbolId ∈ S

theorem GroupWithin.of_eq {g g' : GroupThread} (h : GroupWithin S g)
    (hqueue : g'.processor.groupQueue = g.processor.groupQueue)
    (hpending : ∀ t ∈ g'.pending, t.symbolId ∈ S)
    (hunstored : ∀ t, g'.unstored = some t → t.symbolId ∈ S) : GroupWithin S g' :=
  ⟨hqueue ▸ h.queued, hpending, hunstored⟩

/-- One group changes. -/
theorem Within.setGroup (h : Within S sys) {g : GroupThread}
    (hg : i < groupCount → GroupWithin S g) : ∀ j < groupCount,
    GroupWithin S (Function.update sys.groups i g j) := by
  intro j hj
  rcases eq_or_ne j i with rfl | hne
  · rw [Function.update_self]
    exact hg hj
  · rw [Function.update_of_ne hne]
    exact h.groups j hj

theorem Within.goOn (h : Within S sys) {oms : Oms} (homs : oms.Within S) (pc : OmsPc) :
    Within S (sys.goOn oms pc) := by
  refine ⟨homs, fun o ho => ?_, h.groups, h.lastTrade⟩
  obtain ⟨d, hd, rfl⟩ := List.mem_map.1 ho
  exact homs.dispatched d (List.mem_of_mem_drop hd)

theorem Within.enqueue (h : Within S sys) (hstep : sys.enqueue = some sys') : Within S sys' := by
  obtain ⟨order, outbox, accepted, queue, hbox, hpush, rfl⟩ := enqueue_cases hstep
  have hout : ∀ o ∈ order :: outbox, o.symbolId ∈ S := hbox ▸ h.outbox
  refine ⟨h.oms, fun o ho => ?_, h.setGroup fun hi => ?_, h.lastTrade⟩
  · cases accepted with
    | false => exact hout o ho
    | true => exact hout o (List.mem_cons_of_mem _ ho)
  · have hg := h.groups _ hi
    obtain ⟨l, hl, hmem⟩ := hg.queued
    rcases hl.of_push hpush with ⟨-, rfl, -⟩ | ⟨-, hl'⟩
    · exact ⟨⟨l, hl, hmem⟩, hg.pending, hg.unstored⟩
    · refine ⟨⟨l ++ [order], hl', fun o ho => ?_⟩, hg.pending, hg.unstored⟩
      rcases List.mem_append.1 ho with ho | ho
      · exact hmem o ho
      · rw [List.mem_singleton.1 ho]
        exact hout order List.mem_cons_self

/-- What a pass of a group's thread publishes is of the symbol of the order that it takes. -/
theorem pass_symbols {g g' : GroupProcessor} {l : List Order} (h : g.groupQueue.Holds l)
    (hl : ∀ o ∈ l, o.symbolId ∈ S) (hstep : g.step = .ok g') :
    (∃ l', g'.groupQueue.Holds l' ∧ ∀ o ∈ l', o.symbolId ∈ S) ∧
      ∀ e ∈ g'.published.drop g.published.length, e.trade.symbolId ∈ S := by
  obtain ⟨r, hpop, hrest⟩ := bind_eq_ok.1 hstep
  rcases h.of_pop hpop with ⟨rfl, rfl⟩ | ⟨order, l', queue, rfl, rfl, hqueue⟩
  · cases hrest
    exact ⟨⟨[], h, hl⟩, by simp⟩
  · obtain ⟨book, -, hrest⟩ := bind_eq_ok.1 hrest
    obtain ⟨⟨book', executions⟩, hcall, hrest⟩ := bind_eq_ok.1 hrest
    cases hrest
    obtain ⟨_, -, hsame⟩ := processOrder_congr 0 hcall
    refine ⟨⟨l', hqueue, fun o ho => hl o (List.mem_cons_of_mem _ ho)⟩, fun e he => ?_⟩
    rw [List.drop_left] at he
    rw [hsame.symbol e he]
    exact hl order List.mem_cons_self

theorem Within.take (h : Within S sys) (hstep : sys.take i = some sys') : Within S sys' := by
  unfold System.take at hstep
  dsimp only at hstep
  split_ifs at hstep
  split at hstep
  next => cases hstep
  next processor hprocessor =>
    obtain rfl := Option.some.inj hstep
    refine ⟨h.oms, h.outbox, h.setGroup fun hi => ?_, h.lastTrade⟩
    have hg := h.groups i hi
    obtain ⟨l, hl, hmem⟩ := hg.queued
    obtain ⟨hqueued, hpublished⟩ := pass_symbols hl hmem hprocessor
    refine ⟨hqueued, fun t ht => ?_, hg.unstored⟩
    obtain ⟨e, he, rfl⟩ := List.mem_map.1 ht
    exact hpublished e he

theorem Within.fault (h : Within S sys) {published : List Trade}
    (hstep : sys.fault i published = some sys') : Within S sys' := by
  simp only [System.fault] at hstep
  split_ifs at hstep
  split at hstep
  next order _ _ hpop =>
    split_ifs at hstep with hsymbol
    obtain rfl := Option.some.inj hstep
    refine ⟨h.oms, h.outbox, h.setGroup fun hi => ?_, h.lastTrade⟩
    have hg := h.groups i hi
    refine hg.of_eq rfl (fun t ht => ?_) hg.unstored
    -- the order that the call has popped was in the queue
    obtain ⟨l, hl, hmem⟩ := hg.queued
    rw [hsymbol t ht]
    rcases hl.of_pop hpop with ⟨-, hnone⟩ | ⟨item, l', queue, rfl, hsome, -⟩
    · cases hnone
    · obtain ⟨rfl, -⟩ := Prod.mk.inj (Option.some.inj hsome)
      exact hmem _ List.mem_cons_self
  next => cases hstep

theorem Within.publish (h : Within S sys) (hstep : sys.publish i = some sys') : Within S sys' := by
  simp only [System.publish] at hstep
  split at hstep
  next t pending hpending hunstored =>
    obtain rfl := Option.some.inj hstep
    refine ⟨h.oms, h.outbox, h.setGroup fun hi => ?_, h.lastTrade⟩
    have hg := h.groups i hi
    have hold : ∀ t' ∈ t :: pending, t'.symbolId ∈ S := hpending ▸ hg.pending
    refine hg.of_eq rfl (fun t' ht' => hold t' (List.mem_cons_of_mem _ ht')) fun t' ht' => ?_
    rw [← Option.some.inj ht']
    exact hold t List.mem_cons_self
  next => cases hstep

theorem Within.store (h : Within S sys) (hi : i < groupCount) (hstep : sys.store i = some sys') :
    Within S sys' := by
  simp only [System.store] at hstep
  split at hstep
  next t hunstored =>
    obtain rfl := Option.some.inj hstep
    have hg := h.groups i hi
    refine ⟨h.oms, h.outbox, h.setGroup fun _ => hg.of_eq rfl hg.pending fun _ ht => ?_,
      fun slot t' ht' => ?_⟩
    · cases ht
    · simp only at ht'
      rcases eq_or_ne slot (t.symbolId % maxSymbols) with rfl | hne
      · rw [Function.update_self, Option.some.injEq] at ht'
        exact ht' ▸ hg.unstored t hunstored
      · rw [Function.update_of_ne hne] at ht'
        exact h.lastTrade slot t' ht'
  next => cases hstep

/-- A client order that comes is for an unknown symbol or for one in `S`. -/
def Orders (S : Set ℕ) (st₀ : Oms) (a : Action) : Prop :=
  ∀ newOrder, a = .receive (some newOrder) →
    st₀.findSymbolId newOrder.symbol ≠ 2 ^ 32 - 1 → st₀.findSymbolId newOrder.symbol ∈ S

theorem Within.step (h : Within S sys) {st₀ : Oms}
    (htable : sys.oms.symbolLookupTable = st₀.symbolLookupTable) (hfiled : sys.oms.Filed)
    (ha : Orders S st₀ a) (hstep : sys.step std a = some sys') : Within S sys' := by
  rcases waits_or_goes_on hstep with hwaits | ⟨-, homs⟩
  · cases a with
    | enqueue => exact h.enqueue hstep
    | take i => exact h.take hstep
    | fault i published => exact h.fault hstep
    | publish i => exact h.publish hstep
    | store i => exact h.store i.isLt hstep
    | _ => exact absurd hwaits (by rintro (hne | ⟨_, -, hof⟩) <;> [cases hne; exact hof])
  · obtain ⟨oms, pc, rfl, hcase⟩ := omsStep_cases homs
    refine h.goOn ?_ pc
    rcases hcase with rfl | ⟨newOrder, rfl, rfl⟩ | ⟨t, -, hok⟩ | ⟨slot, -, rfl⟩
    · exact h.oms
    · refine h.oms.receive std ?_
      rw [Oms.findSymbolId_of_table htable]
      exact ha newOrder rfl
    · exact h.oms.checkFill hok
    · exact h.oms.pollPrice std hfiled slot _

/-! ## Runs -/

/-- The symbols stay as they are. -/
theorem table_step (hfiled : sys.oms.Filed) (hstep : sys.step std a = some sys') :
    sys'.oms.symbolLookupTable = sys.oms.symbolLookupTable := by
  rcases step_cases hstep with hi | ⟨i, -, hstore⟩ | homs
  · rw [hi.oms]
  · simp only [System.store] at hstore
    split at hstore
    · obtain rfl := Option.some.inj hstore
      rfl
    · cases hstore
  · obtain ⟨oms, pc, rfl, hcase⟩ := omsStep_cases homs
    rcases hcase with rfl | ⟨newOrder, -, rfl⟩ | ⟨t, -, hok⟩ | ⟨slot, -, rfl⟩
    · rfl
    · rcases Oms.receive_cases std sys.oms newOrder with hq | hstop
      · exact hq.table
      · rw [hstop]
        rfl
    · exact (Oms.quiet_checkFill hok).table
    · exact (Oms.polled_pollPrice std hfiled slot _).table

/-- The price in a slot reaches only stops of the symbol that has traded, if no two symbols in `S`
share a slot. -/
theorem Inv.ownPrice (h : Inv sys) (hwithin : Within S sys) (hS : Set.InjOn (· % maxSymbols) S) :
    OwnPrice sys a := by
  intro slot _ _ t ht stop hstop _
  obtain ⟨side, hside⟩ : ∃ side, stop ∈ sys.oms.stopsAt slot side :=
    (List.mem_append.1 hstop).elim (fun h => ⟨.sell, h⟩) fun h => ⟨.buy, h⟩
  obtain ⟨-, -, hstopSlot⟩ := h.filed slot side stop hside
  obtain ⟨-, -, htradeSlot⟩ := h.lastTrade slot t ht
  exact hS (hwithin.oms.stops slot side stop hside) (hwithin.lastTrade slot t ht)
    (hstopSlot.trans htradeSlot.symm)

/-- All that a run orders is for unknown symbols or for symbols in `S`, of which no two share a
slot. -/
theorem kept_run {symbolLookupTable : ℕ → ℤ} {bootTimestamp : ℕ} {clock uninit : ℕ → ℕ}
    {groups : ℕ → GroupProcessor} (hgroups : ∀ i < groupCount, (groups i).groupQueue.Holds [])
    {actions : List Action} (hS : Set.InjOn (· % maxSymbols) S)
    (ha : ∀ a ∈ actions, Orders S (.init symbolLookupTable bootTimestamp clock uninit) a)
    (hrun : (start (.init symbolLookupTable bootTimestamp clock uninit) groups).run std actions =
      some sys) :
    Inv sys ∧ Within S sys := by
  have hstart : Within S (start (.init symbolLookupTable bootTimestamp clock uninit) groups) := by
    refine ⟨Oms.within_init _ _ _ _, List.forall_mem_nil _, fun i hi => ?_, fun _ _ ht => ?_⟩
    · exact ⟨⟨[], hgroups i hi, List.forall_mem_nil _⟩, List.forall_mem_nil _,
        fun _ ht => by cases ht⟩
    · cases ht
  have hkept : Inv sys ∧ Within S sys ∧ sys.oms.symbolLookupTable = symbolLookupTable := by
    refine Runs.Steps.invariant (P := fun _ a => Orders S (.init _ _ _ _) a)
      (I := fun sys => Inv sys ∧ Within S sys ∧ sys.oms.symbolLookupTable = symbolLookupTable)
      ?_ ⟨inv_start _ _ _ _ _, hstart, rfl⟩ (.of_forall_mem fun a hmem _ => ha a hmem)
      (Runs.steps_iff_some.2 hrun)
    rintro sys a sys' ⟨hinv, hwithin, htable⟩ horders hstep
    exact ⟨(hinv.step (hinv.ownPrice hwithin hS) hstep).1,
      hwithin.step htable hinv.filed horders hstep, (table_step hinv.filed hstep).trans htable⟩
  exact ⟨hkept.1, hkept.2.1⟩

/-- The known symbols that are ordered. -/
def symbolsOf (st₀ : Oms) (orders : List ClientOrder) : Set ℕ :=
  { s | s ≠ 2 ^ 32 - 1 ∧ ∃ o ∈ orders, st₀.findSymbolId o.symbol = s }

theorem orders_symbolsOf (st₀ : Oms) {actions : List Action} :
    ∀ a ∈ actions, Orders (symbolsOf st₀ (receivedOrders actions)) st₀ a := by
  rintro a ha newOrder rfl hknown
  exact ⟨hknown, newOrder, List.mem_filterMap.2 ⟨_, ha, rfl⟩, rfl⟩

/-- In every run in which no two known symbols that are ordered share a slot, the looks at slots
meet `OwnPrice`, and stops are dispatched for trades in their own symbols only. -/
theorem ownSlots_stopsSound (std : StdHeap ClientOrder) (symbolLookupTable : ℕ → ℤ)
    (bootTimestamp : ℕ) (clock uninit : ℕ → ℕ) {groups : ℕ → GroupProcessor}
    (hgroups : ∀ i < groupCount, (groups i).groupQueue.Holds []) {actions : List Action}
    (hslots : Set.InjOn (· % maxSymbols)
      (symbolsOf (.init symbolLookupTable bootTimestamp clock uninit) (receivedOrders actions)))
    (hrun : (start (.init symbolLookupTable bootTimestamp clock uninit) groups).run std actions =
      some sys) :
    Runs.Always (fun sys a sys' => System.step std sys a = some sys') OwnPrice
      (start (.init symbolLookupTable bootTimestamp clock uninit) groups) actions ∧
    StopsSound sys ∧ ∀ pre a post sys₁ sys₂, actions = pre ++ a :: post →
      (start (.init symbolLookupTable bootTimestamp clock uninit) groups).run std pre =
        some sys₁ →
      sys₁.step std a = some sys₂ → OwnTrigger sys₁ sys₂ := by
  have hpre : ∀ {pre post sys₁}, actions = pre ++ post →
      (start (.init symbolLookupTable bootTimestamp clock uninit) groups).run std pre =
        some sys₁ →
      Inv sys₁ ∧ Within (symbolsOf (.init symbolLookupTable bootTimestamp clock uninit)
        (receivedOrders actions)) sys₁ := by
    intro pre post sys₁ heq hpre
    refine kept_run hgroups hslots (fun a ha => ?_) hpre
    exact orders_symbolsOf _ a (heq ▸ List.mem_append_left _ ha)
  refine ⟨fun pre a post sys₁ heq hsteps => ?_, (hpre (List.append_nil _).symm hrun).1.sound,
    fun pre a post sys₁ sys₂ heq hrun₁ hstep => ?_⟩
  · obtain ⟨hinv, hwithin⟩ := hpre heq (Runs.steps_iff_some.1 hsteps)
    exact hinv.ownPrice hwithin hslots
  · obtain ⟨hinv, hwithin⟩ := hpre heq hrun₁
    exact (hinv.step (hinv.ownPrice hwithin hslots) hstep).2

/-- `AAPL` has the id 1 and every other symbol the id 2. -/
def ownTable (hash : ℕ) : ℤ :=
  if hash = Oms.findHash [65, 65, 80, 76] then 1 else 2

theorem injOn_ownTable (orders : List ClientOrder) :
    Set.InjOn (· % maxSymbols) (symbolsOf (.init ownTable 0 id id) orders) := by
  have hsmall : ∀ {s}, s ∈ symbolsOf (.init ownTable 0 id id) orders → s < maxSymbols := by
    rintro s ⟨hknown, o, -, rfl⟩
    simp only [Oms.findSymbolId, Oms.findId, Oms.init, ownTable] at hknown ⊢
    split_ifs at hknown ⊢
    · exact absurd rfl hknown
    · decide
    · decide
  intro s hs s' hs' heq
  simpa only [Nat.mod_eq_of_lt (hsmall hs), Nat.mod_eq_of_lt (hsmall hs')] using heq

/-- A sell in `TSLA` that rests. -/
def restActions : List Action :=
  sellActions [84, 83, 76, 65] ++ [.take ⟨0, zero_lt_groupCount⟩]

/-- A stop and a sell in `AAPL`, with a sell in `TSLA` in between, and a buy in `AAPL` that
trades. -/
def ownActions : List Action :=
  stopActions ++ round ++ (restActions ++ round) ++ (sellActions [65, 65, 80, 76] ++ round) ++
    buyActions [65, 65, 80, 76] ⟨0, zero_lt_groupCount⟩

/-- The stop is dispatched, for the trade in its own symbol. -/
theorem ownSlots_stopsSound_twoSymbols : ∃ sys,
    (start (Oms.init ownTable 0 id id) sampleGroups).run (.sorting _) ownActions = some sys ∧
    (sys.oms.dispatched.map fun d => (d.site, d.order.symbolId)) =
      [(.limit, 2), (.limit, 1), (.limit, 1), (.stopLoss, 1)] ∧ StopsSound sys := by
  have hview : (do
      let sys₁ ← (start (Oms.init ownTable 0 id id) sampleGroups).run (.sorting _) stopActions
      let sys₂ ← { sys₁ with pc := OmsPc.receive }.run (.sorting _) restActions
      let sys₃ ← { sys₂ with pc := OmsPc.receive }.run (.sorting _)
        (sellActions [65, 65, 80, 76])
      let sys ← { sys₃ with pc := OmsPc.receive }.run (.sorting _)
        (buyActions [65, 65, 80, 76] ⟨0, zero_lt_groupCount⟩)
      some (decide (sys₁.outbox = [] ∧ sys₁.pc = .consume 0),
        decide (sys₂.outbox = [] ∧ sys₂.pc = .consume 0),
        decide (sys₃.outbox = [] ∧ sys₃.pc = .consume 0),
        sys.oms.dispatched.map fun d => (d.site, d.order.symbolId))) =
      some (true, true, true, [(.limit, 2), (.limit, 1), (.limit, 1), (.stopLoss, 1)]) := by
    decide +kernel
  simp only [Option.bind_eq_bind, Option.bind_eq_some_iff, Option.some.injEq, Prod.mk.injEq,
    decide_eq_true_eq] at hview
  obtain ⟨sys₁, hrun₁, sys₂, hrun₂, sys₃, hrun₃, sys, hrun, h₁, h₂, h₃,
    hdispatched⟩ := hview
  -- the rest of each round finds nothing
  have hseen : Seen (start (Oms.init ownTable 0 id id) sampleGroups) := fun _ => rfl
  obtain ⟨hround₁, hseen₁⟩ := hseen.run_round (by simp [stopActions]) hrun₁ h₁.1 h₁.2
  obtain ⟨hround₂, hseen₂⟩ :=
    hseen₁.run_round (by simp [restActions, sellActions]) hrun₂ h₂.1 h₂.2
  obtain ⟨hround₃, -⟩ := hseen₂.run_round (by simp [sellActions]) hrun₃ h₃.1 h₃.2
  have hall : (start (Oms.init ownTable 0 id id) sampleGroups).run (.sorting _) ownActions =
      some sys :=
    Runs.steps_iff_some.1 (Runs.steps_append.2 ⟨_, Runs.steps_append.2 ⟨_, Runs.steps_append.2
      ⟨_, Runs.steps_iff_some.2 hround₁, Runs.steps_iff_some.2 hround₂⟩,
      Runs.steps_iff_some.2 hround₃⟩, Runs.steps_iff_some.2 hrun⟩)
  exact ⟨sys, hall, hdispatched,
    (ownSlots_stopsSound _ _ _ _ _ sampleGroups_holds (injOn_ownTable _) hall).2.1⟩

end System

end TradeX
