import TradeX.StopRegistry
import TradeX.DispatchWait

/-!
# From the clients to the engine

Where a client order is after `listenForClientOrder` has popped it. An order for an unknown symbol
and a limit order without a price are dropped. The other market and limit orders are dispatched,
each once and in the order in which they come; a stop is pending or has been dispatched once; and a
slice is one of an iceberg that has come. What has been dispatched waits to be enqueued, is in the
queue of its group, or has been taken by its thread, in order.

`no_order_lost` says this of every state that the system reaches, whatever the threads do and
whatever the orders hold.
-/

namespace TradeX

namespace Oms

/-- A market order, or a limit order with a price, for a known symbol. -/
def IsDirect (st : Oms) (newOrder : ClientOrder) : Prop :=
  st.findSymbolId newOrder.symbol ≠ 2 ^ 32 - 1 ∧
    (newOrder.executionType = .market ∨ newOrder.executionType = .limit ∧ newOrder.price ≠ 0)

/-- An iceberg for a known symbol. -/
def IsIceberg (st : Oms) (newOrder : ClientOrder) : Prop :=
  st.findSymbolId newOrder.symbol ≠ 2 ^ 32 - 1 ∧ newOrder.executionType = .iceberg

instance (st : Oms) : DecidablePred st.IsDirect :=
  fun _ => inferInstanceAs (Decidable (_ ∧ _))

instance (st : Oms) : DecidablePred st.IsStop :=
  fun _ => inferInstanceAs (Decidable (_ ∧ _))

/-- The client orders of the dispatches from places that `p` holds of. -/
def clientsFrom (p : DispatchSite → Prop) [DecidablePred p] (l : List Dispatch) :
    List ClientOrder :=
  (l.filter fun d => p d.site).map Dispatch.client

/-- The places where an order is dispatched as it comes. -/
def DirectSite (site : DispatchSite) : Prop :=
  site = .market ∨ site = .limit

instance : DecidablePred DirectSite :=
  fun _ => inferInstanceAs (Decidable (_ ∨ _))

variable {st₀ st st' : Oms} {received : List ClientOrder} {std : StdHeap ClientOrder}

theorem clientsFrom_append (p : DispatchSite → Prop) [DecidablePred p] (l l' : List Dispatch) :
    clientsFrom p (l ++ l') = clientsFrom p l ++ clientsFrom p l' := by
  rw [clientsFrom, List.filter_append, List.map_append]
  rfl

theorem clientsFrom_eq_nil {p : DispatchSite → Prop} [DecidablePred p] {l : List Dispatch}
    (h : ∀ d ∈ l, ¬p d.site) : clientsFrom p l = [] := by
  rw [clientsFrom, List.map_eq_nil_iff, List.filter_eq_nil_iff]
  simpa using h

theorem clientsFrom_eq_map {p : DispatchSite → Prop} [DecidablePred p] {l : List Dispatch}
    (h : ∀ d ∈ l, p d.site) : clientsFrom p l = l.map Dispatch.client := by
  rw [clientsFrom, List.filter_eq_self.2]
  simpa using h

/-! ## Icebergs -/

/-- The record is that of an iceberg that has come, but for what has been filled. -/
def FromIceberg (st₀ : Oms) (received : List ClientOrder) (parent : ClientOrder) : Prop :=
  ∃ o ∈ received, st₀.IsIceberg o ∧
    { parent with filledQuantity := o.filledQuantity } = st₀.withSymbolId o

/-- The active icebergs and the parents of the slices are icebergs that have come. -/
structure Parents (st₀ : Oms) (received : List ClientOrder) (st : Oms) : Prop where
  active : ∀ id parent, st.activeIcebergs id = some parent → parent.isActive = true →
    FromIceberg st₀ received parent
  slices : ∀ d ∈ st.dispatched, d.site = .slice → FromIceberg st₀ received d.client

/-- Only slices are dispatched, and the symbols and the stops stay as they are. -/
structure Slices (st st' : Oms) : Prop where
  table : st'.symbolLookupTable = st.symbolLookupTable
  registry : st'.stopLossRegistry = st.stopLossRegistry
  dispatched : ∃ new, st'.dispatched = st.dispatched ++ new ∧ ∀ d ∈ new, d.site = .slice

theorem Slices.refl (st : Oms) : Slices st st :=
  ⟨rfl, rfl, [], (List.append_nil _).symm, List.forall_mem_nil _⟩

theorem Slices.trans {st₁ st₂ st₃ : Oms} (h : Slices st₁ st₂) (h' : Slices st₂ st₃) :
    Slices st₁ st₃ := by
  obtain ⟨new, hnew, hsite⟩ := h.dispatched
  obtain ⟨new', hnew', hsite'⟩ := h'.dispatched
  refine ⟨h'.table.trans h.table, h'.registry.trans h.registry, new ++ new',
    by rw [hnew', hnew, List.append_assoc], fun d hd => ?_⟩
  exact (List.mem_append.1 hd).elim (hsite d) (hsite' d)

/-- An iceberg is changed in a way that keeps what it came with. -/
theorem Parents.setIceberg (h : Parents st₀ received st) (id : ℕ) {parent : ClientOrder}
    (hparent : parent.isActive = true → FromIceberg st₀ received parent) :
    Parents st₀ received (st.setIceberg id parent) := by
  refine ⟨fun id' parent' hget hactive => ?_, h.slices⟩
  rcases eq_or_ne id' id with rfl | hne
  · have hself : (st.setIceberg id' parent).activeIcebergs id' = some parent :=
      Function.update_self ..
    obtain rfl := Option.some.inj (hself.symm.trans hget)
    exact hparent hactive
  · have hother : (st.setIceberg id parent).activeIcebergs id' = st.activeIcebergs id' :=
      Function.update_of_ne hne ..
    exact h.active id' parent' (hother ▸ hget) hactive

theorem Parents.iceberg (h : Parents st₀ received st) (id : ℕ)
    (hactive : (st.iceberg id).isActive = true) : FromIceberg st₀ received (st.iceberg id) := by
  unfold Oms.iceberg at hactive ⊢
  cases hget : st.activeIcebergs id with
  | none =>
    rw [hget] at hactive
    cases hactive
  | some parent =>
    rw [hget] at hactive
    exact h.active id parent hget hactive

theorem Parents.sendSlice (h : Parents st₀ received st) (id : ℕ) :
    Parents st₀ received (st.sendSlice id) ∧ Slices st (st.sendSlice id) := by
  have hset := h.setIceberg id (h.iceberg id)
  simp only [Oms.sendSlice]
  split_ifs with hactive hzero
  · refine ⟨hset.setIceberg id ?_, rfl, rfl, [], (List.append_nil _).symm,
      List.forall_mem_nil _⟩
    exact fun hfalse => by cases hfalse
  · refine ⟨⟨hset.active, fun d hd hsite => ?_⟩, rfl, rfl, _, rfl, by simp⟩
    rcases List.mem_append.1 hd with hd | hd
    · exact h.slices d hd hsite
    · rw [List.mem_singleton.1 hd]
      exact h.iceberg id hactive
  · exact ⟨hset, rfl, rfl, [], (List.append_nil _).symm, List.forall_mem_nil _⟩

theorem Parents.checkLeg (h : Parents st₀ received st) {id q : ℕ}
    (hok : st.checkLeg id q = .ok st') : Parents st₀ received st' ∧ Slices st st' := by
  simp only [Oms.checkLeg, Oms.processIcebergLeg] at hok
  split_ifs at hok
  · split at hok
    next =>
      cases hok
      exact ⟨h, .refl _⟩
    next parentId _ =>
      have hfilled : ∀ n, { st.iceberg parentId with filledQuantity := n }.isActive = true →
          FromIceberg st₀ received { st.iceberg parentId with filledQuantity := n } := by
        intro n hactive
        obtain ⟨o, ho, hiceberg, hrecord⟩ := h.iceberg parentId hactive
        exact ⟨o, ho, hiceberg, hrecord⟩
      have hset := h.setIceberg parentId (hfilled (add32 (st.iceberg parentId).filledQuantity q))
      split_ifs at hok
      · cases hok
        have hfreed : Parents st₀ received { st.setIceberg parentId { st.iceberg parentId with
            filledQuantity := add32 (st.iceberg parentId).filledQuantity q } with
            childToParent := Function.update st.childToParent id none } :=
          ⟨hset.active, hset.slices⟩
        obtain ⟨hparents, hslices⟩ := hfreed.sendSlice parentId
        exact ⟨hparents, hslices.table, hslices.registry, hslices.dispatched⟩
      · cases hok
        exact ⟨hset, rfl, rfl, [], (List.append_nil _).symm, List.forall_mem_nil _⟩
  · cases hok
    exact ⟨h, .refl _⟩

theorem Parents.checkFill (h : Parents st₀ received st) {t : Trade}
    (hok : st.checkFill t = .ok st') : Parents st₀ received st' ∧ Slices st st' := by
  rw [Oms.checkFill] at hok
  split_ifs at hok
  · cases hok
    exact ⟨h, .refl _⟩
  · obtain ⟨st₁, hbuy, hsell⟩ := bind_eq_ok.1 hok
    obtain ⟨h₁, hslices₁⟩ := h.checkLeg hbuy
    obtain ⟨h', hslices'⟩ := h₁.checkLeg hsell
    exact ⟨h', hslices₁.trans hslices'⟩

/-! ## All orders -/

/-- Where the client orders that have come are. -/
structure Flow (st₀ : Oms) (received : List ClientOrder) (st : Oms) : Prop where
  table : st.symbolLookupTable = st₀.symbolLookupTable
  heaps : Heaps st
  direct : clientsFrom DirectSite st.dispatched =
    (received.filter st₀.IsDirect).map st₀.withSymbolId
  stops : (clientsFrom (· = .stopLoss) st.dispatched : Multiset ClientOrder) + st.pending =
    ((received.filter st₀.IsStop).map st₀.withSymbolId : List ClientOrder)
  parents : Parents st₀ received st

theorem findSymbolId_of_table (h : st.symbolLookupTable = st₀.symbolLookupTable)
    (symbol : List UInt8) : st.findSymbolId symbol = st₀.findSymbolId symbol := by
  rw [findSymbolId, findSymbolId, findId, findId, h]

theorem withSymbolId_of_table (h : st.symbolLookupTable = st₀.symbolLookupTable)
    (o : ClientOrder) : st.withSymbolId o = st₀.withSymbolId o := by
  rw [withSymbolId, withSymbolId, findSymbolId_of_table h]

/-- Only slices are dispatched. -/
theorem Flow.slices (h : Flow st₀ received st) (hslices : Slices st st')
    (hparents : Parents st₀ received st') : Flow st₀ received st' := by
  obtain ⟨new, hnew, hsite⟩ := hslices.dispatched
  have hdirect : clientsFrom DirectSite new = [] :=
    clientsFrom_eq_nil fun d hd hdirect => by
      rw [hsite d hd] at hdirect
      rcases hdirect with hdirect | hdirect <;> cases hdirect
  have hstops : clientsFrom (· = .stopLoss) new = [] :=
    clientsFrom_eq_nil fun d hd hstop => by
      rw [hsite d hd] at hstop
      cases hstop
  refine ⟨hslices.table.trans h.table, ?_, ?_, ?_, hparents⟩
  · intro slot
    rw [hslices.registry]
    exact h.heaps slot
  · rw [hnew, clientsFrom_append, hdirect, List.append_nil]
    exact h.direct
  · rw [hnew, clientsFrom_append, hstops, List.append_nil, pending, hslices.registry]
    exact h.stops

theorem FromIceberg.mono {parent : ClientOrder} (h : FromIceberg st₀ received parent)
    (o : ClientOrder) : FromIceberg st₀ (received ++ [o]) parent := by
  obtain ⟨o', ho', hiceberg⟩ := h
  exact ⟨o', List.mem_append_left _ ho', hiceberg⟩

theorem Parents.mono (h : Parents st₀ received st) (o : ClientOrder) :
    Parents st₀ (received ++ [o]) st :=
  ⟨fun id parent hget hactive => (h.active id parent hget hactive).mono o,
    fun d hd hsite => (h.slices d hd hsite).mono o⟩

/-- An order comes that is neither sent to the engine as it is nor a stop. -/
theorem Flow.other (h : Flow st₀ received st) {o : ClientOrder} (hdirect : ¬st₀.IsDirect o)
    (hstop : ¬st₀.IsStop o) : Flow st₀ (received ++ [o]) st := by
  refine ⟨h.table, h.heaps, ?_, ?_, h.parents.mono o⟩
  · rw [List.filter_append, List.filter_cons_of_neg (by simpa using hdirect), List.filter_nil,
      List.append_nil]
    exact h.direct
  · rw [List.filter_append, List.filter_cons_of_neg (by simpa using hstop), List.filter_nil,
      List.append_nil]
    exact h.stops

/-- An order comes and is sent to the engine. -/
theorem Flow.dispatch (h : Flow st₀ received st) {o : ClientOrder} (hdirect : st₀.IsDirect o)
    {site : DispatchSite} (hsite : DirectSite site) (n : ℕ) (order : Order) :
    Flow st₀ (received ++ [o])
      ({ st with nextOmsOrderId := n }.dispatch site (st.withSymbolId o) order) := by
  have hstop : ¬st₀.IsStop o := by
    rintro ⟨htype, -⟩
    rcases hdirect.2 with hmarket | ⟨hlimit, -⟩
    · cases htype.symm.trans hmarket
    · cases htype.symm.trans hlimit
  have hnot : ¬site = .stopLoss := by
    rcases hsite with rfl | rfl <;> decide
  have hone : clientsFrom DirectSite [⟨site, st.withSymbolId o, order⟩] =
      [st₀.withSymbolId o] := by
    rw [clientsFrom_eq_map (by simpa using hsite), withSymbolId_of_table h.table]
    rfl
  have hnone : clientsFrom (· = .stopLoss) [⟨site, st.withSymbolId o, order⟩] = [] :=
    clientsFrom_eq_nil (by simpa using hnot)
  refine ⟨h.table, h.heaps, ?_, ?_, ⟨(h.parents.mono o).active, fun d hd hslice => ?_⟩⟩
  · rw [List.filter_append, List.filter_cons_of_pos (by simpa using hdirect), List.filter_nil,
      List.map_append, ← h.direct]
    change clientsFrom DirectSite (st.dispatched ++ [_]) = _
    rw [clientsFrom_append, hone]
    rfl
  · rw [List.filter_append, List.filter_cons_of_neg (by simpa using hstop), List.filter_nil,
      List.append_nil, ← h.stops]
    change (clientsFrom (· = .stopLoss) (st.dispatched ++ [_]) : Multiset ClientOrder) +
      st.pending = _
    rw [clientsFrom_append, hnone, List.append_nil]
  · rcases List.mem_append.1 hd with hd | hd
    · exact (h.parents.mono o).slices d hd hslice
    · rw [List.mem_singleton.1 hd] at hslice
      rcases hsite with rfl | rfl <;> cases hslice

/-- A stop comes and is registered. -/
theorem Flow.stop (h : Flow st₀ received st) (std : StdHeap ClientOrder) {o : ClientOrder}
    (hstop : st₀.IsStop o) :
    Flow st₀ (received ++ [o]) (st.registerStopLoss std (st.withSymbolId o)) := by
  have hdirect : ¬st₀.IsDirect o := by
    rintro ⟨-, hmarket | ⟨hlimit, -⟩⟩
    · cases hstop.1.symm.trans hmarket
    · cases hstop.1.symm.trans hlimit
  refine ⟨h.table, h.heaps.registerStopLoss _, ?_, ?_,
    ⟨(h.parents.mono o).active, (h.parents.mono o).slices⟩⟩
  · rw [List.filter_append, List.filter_cons_of_neg (by simpa using hdirect), List.filter_nil,
      List.append_nil]
    exact h.direct
  · rw [pending_registerStopLoss, ← add_assoc, List.filter_append,
      List.filter_cons_of_pos (by simpa using hstop), List.filter_nil, List.map_append,
      ← Multiset.coe_add, ← h.stops, withSymbolId_of_table h.table]
    rfl

/-- An iceberg comes and its first slice is sent. -/
theorem Flow.iceberg (h : Flow st₀ received st) {o : ClientOrder} (hiceberg : st₀.IsIceberg o)
    (id : ℕ) :
    Flow st₀ (received ++ [o]) ((st.setIceberg id (st.withSymbolId o)).sendSlice id) := by
  have hother : Flow st₀ (received ++ [o]) st := by
    refine h.other ?_ ?_
    · rintro ⟨-, hmarket | ⟨hlimit, -⟩⟩
      · cases hiceberg.2.symm.trans hmarket
      · cases hiceberg.2.symm.trans hlimit
    · rintro ⟨htype, -⟩
      cases hiceberg.2.symm.trans htype
  have hset := hother.parents.setIceberg id fun _ => show FromIceberg st₀ (received ++ [o])
    (st.withSymbolId o) from ⟨o, List.mem_concat_self, hiceberg,
      withSymbolId_of_table h.table o⟩
  obtain ⟨hparents, hslices⟩ := hset.sendSlice id
  exact hother.slices ⟨hslices.table, hslices.registry, hslices.dispatched⟩ hparents

/-- What `listenForClientOrder` does with an order it has popped. -/
theorem Flow.receive (h : Flow st₀ received st) (std : StdHeap ClientOrder) (o : ClientOrder) :
    Flow st₀ (received ++ [o]) (st.receive std o) := by
  have hsymbol : (st.withSymbolId o).symbolId = st₀.findSymbolId o.symbol :=
    findSymbolId_of_table h.table _
  rw [Oms.receive]
  split_ifs with hknown
  · rw [hsymbol] at hknown
    split
    next htype => exact h.iceberg ⟨hknown, htype⟩ _
    next htype => exact h.stop std ⟨htype, hknown⟩
    next htype => exact h.dispatch ⟨hknown, Or.inl htype⟩ (Or.inl rfl) _ _
    next htype =>
      rw [sendLimit]
      split_ifs with hprice
      · exact h.dispatch ⟨hknown, Or.inr ⟨htype, hprice⟩⟩ (Or.inr rfl) _ _
      · refine h.other ?_ ?_
        · rintro ⟨-, hmarket | ⟨-, hne⟩⟩
          · cases htype.symm.trans hmarket
          · exact hprice hne
        · rintro ⟨hstop, -⟩
          cases htype.symm.trans hstop
  · rw [hsymbol] at hknown
    exact h.other (fun hdirect => hknown hdirect.1) fun hstop => hknown hstop.2

theorem site_of_fires {stops : List ClientOrder} {new : List Dispatch}
    (h : List.Forall₂ Fires stops new) : ∀ d ∈ new, d.site = .stopLoss := by
  induction h with
  | nil => exact List.forall_mem_nil _
  | cons hfire _ ih => exact List.forall_mem_cons.2 ⟨hfire.site, ih⟩

theorem triggerStops_keeps : ∀ (stops : List ClientOrder) (st : Oms),
    (stops.foldl triggerStop st).symbolLookupTable = st.symbolLookupTable ∧
      (stops.foldl triggerStop st).activeIcebergs = st.activeIcebergs
  | [], _ => ⟨rfl, rfl⟩
  | _ :: stops, _ => triggerStops_keeps stops _

/-- A price is found in a slot. -/
theorem Flow.pollPrice (h : Flow st₀ received st) (std : StdHeap ClientOrder) {slot : ℕ}
    (hslot : slot < maxSymbols) (price : ℕ) :
    Flow st₀ received (st.pollPrice std slot price) := by
  rw [Oms.pollPrice]
  split_ifs
  · obtain ⟨sells, buys, new, hfired⟩ := h.heaps.fired std slot price
    obtain ⟨htable, hicebergs⟩ := triggerStops_keeps _ { st with
      stopLossRegistry := Function.update st.stopLossRegistry slot
        (withoutHit std (st.stopLossRegistry slot) price) }
    have hsite : ∀ d ∈ new, d.site = .stopLoss := site_of_fires hfired.orders
    have hdirect : clientsFrom DirectSite new = [] :=
      clientsFrom_eq_nil fun d hd hdirect => by
        rw [hsite d hd] at hdirect
        rcases hdirect with hdirect | hdirect <;> cases hdirect
    have hnew : clientsFrom (· = .stopLoss) new = new.map Dispatch.client :=
      clientsFrom_eq_map hsite
    have hpending : (new.map Dispatch.client : Multiset ClientOrder) +
        (st.checkAndTriggerSL std slot price).pending = st.pending := by
      have hconserves := hfired.conserves hslot
      rw [dispatchedStops, hfired.dispatched, List.map_append, ← Multiset.coe_add,
        add_assoc] at hconserves
      exact add_left_cancel hconserves
    refine ⟨htable.trans h.table, h.heaps.checkAndTriggerSL std slot price, ?_, ?_,
      ⟨fun id parent hget hactive => ?_, fun d hd hslice => ?_⟩⟩
    · change clientsFrom DirectSite (st.checkAndTriggerSL std slot price).dispatched = _
      rw [hfired.dispatched, clientsFrom_append, hdirect, List.append_nil]
      exact h.direct
    · change (clientsFrom (· = .stopLoss) (st.checkAndTriggerSL std slot price).dispatched :
        Multiset ClientOrder) + (st.checkAndTriggerSL std slot price).pending = _
      rw [hfired.dispatched, clientsFrom_append, hnew, ← Multiset.coe_add, add_assoc, hpending]
      exact h.stops
    · refine h.parents.active id parent ?_ hactive
      have hsame : (st.checkAndTriggerSL std slot price).activeIcebergs = st.activeIcebergs :=
        hicebergs
      rw [← hsame]
      exact hget
    · have hd' : d ∈ st.dispatched ++ new := hfired.dispatched ▸ hd
      rcases List.mem_append.1 hd' with hd | hd
      · exact h.parents.slices d hd hslice
      · cases (hsite d hd).symm.trans hslice
  · exact h

end Oms

/-! ## The system -/

open MatchingEngineDispatcher

namespace System

section Run

variable {std : StdHeap ClientOrder} {st₀ : Oms} {sys sys' : System} {received : List ClientOrder}
  {enqueued : List Order} {i : ℕ}

/-- The client orders that `listenForClientOrder` has popped. -/
def receivedOrders (actions : List Action) : List ClientOrder :=
  actions.filterMap fun
    | .receive newOrder => newOrder
    | _ => none

/-- The orders `enqueued` have been put into the queues of their groups, and the threads of the
groups have taken the first of them. -/
structure Queued (sys : System) (enqueued : List Order) : Prop where
  dispatched : sys.dispatchedOrders = enqueued ++ sys.outbox
  groups : ∀ i < groupCount, ∃ taken queued,
    taken ++ queued = enqueued.filter (fun o => groupOf o.symbolId = i) ∧
      (sys.groups i).processor.groupQueue.Holds queued

/-- The orders are where they should be, and the loop over the prices is at a slot. -/
structure Flows (st₀ : Oms) (received : List ClientOrder) (sys : System) : Prop where
  flow : Oms.Flow st₀ received sys.oms
  slot : ∀ slot, sys.pc = .poll slot → slot < maxSymbols
  queued : ∃ enqueued, Queued sys enqueued

theorem Queued.enqueue (h : Queued sys enqueued) (hstep : sys.enqueue = some sys') :
    ∃ enqueued', Queued sys' enqueued' := by
  obtain ⟨order, outbox, accepted, queue, hbox, hpush, rfl⟩ := enqueue_cases hstep
  have hdispatched := h.dispatched
  rw [hbox] at hdispatched
  obtain ⟨taken, queued, -, hqueue⟩ := h.groups _ (groupOf_lt order.symbolId)
  rcases hqueue.of_push hpush with ⟨rfl, rfl, -⟩ | ⟨rfl, -⟩
  · refine ⟨enqueued, hdispatched, fun j hj => ?_⟩
    simp only [tried, System.setGroup, withQueue, Function.update_eq_self]
    exact h.groups j hj
  · refine ⟨enqueued ++ [order], ?_, exists_split_concat h.groups (fun taken queued hqueue => ?_)
      fun j hne taken queued hqueue => ?_⟩
    · rw [List.append_assoc]
      exact hdispatched
    · simp only [tried, System.setGroup, Function.update_self]
      exact hqueue.of_accepted hpush
    · simp only [tried, System.setGroup, Function.update_of_ne hne]
      exact hqueue

/-- A pass of a group's thread takes the first order of its queue, if there is one. -/
theorem holds_of_step {g g' : GroupProcessor} {queued : List Order} (h : g.groupQueue.Holds queued)
    (hstep : g.step = .ok g') :
    queued = [] ∧ g'.groupQueue.Holds [] ∨
      ∃ order queued', queued = order :: queued' ∧ g'.groupQueue.Holds queued' := by
  obtain ⟨r, hpop, hrest⟩ := bind_eq_ok.1 hstep
  rcases h.of_pop hpop with ⟨rfl, rfl⟩ | ⟨order, queued', queue, rfl, rfl, hqueue⟩
  · cases hrest
    exact Or.inl ⟨rfl, h⟩
  · obtain ⟨_, -, hrest⟩ := bind_eq_ok.1 hrest
    obtain ⟨_, -, hrest⟩ := bind_eq_ok.1 hrest
    cases hrest
    exact Or.inr ⟨order, queued', rfl, hqueue⟩

theorem Queued.setGroup (h : Queued sys enqueued) (homs : sys'.oms = sys.oms)
    (hbox : sys'.outbox = sys.outbox) {t : GroupThread}
    (hgroups : sys'.groups = Function.update sys.groups i t)
    (hqueue : ∀ queued, (sys.groups i).processor.groupQueue.Holds queued →
      ∃ first rest, first ++ rest = queued ∧ t.processor.groupQueue.Holds rest) :
    Queued sys' enqueued := by
  refine ⟨?_, fun j hj => ?_⟩
  · rw [dispatchedOrders, homs, hbox]
    exact h.dispatched
  · obtain ⟨taken, queued, hsplit, hholds⟩ := h.groups j hj
    rw [hgroups]
    rcases eq_or_ne j i with rfl | hne
    · obtain ⟨first, rest, rfl, hrest⟩ := hqueue queued hholds
      rw [Function.update_self]
      exact ⟨taken ++ first, rest, by rw [List.append_assoc, hsplit], hrest⟩
    · rw [Function.update_of_ne hne]
      exact ⟨taken, queued, hsplit, hholds⟩

theorem Queued.take (h : Queued sys enqueued) (hstep : sys.take i = some sys') :
    Queued sys' enqueued := by
  unfold System.take at hstep
  dsimp only at hstep
  split_ifs at hstep
  split at hstep
  next => cases hstep
  next processor hprocessor =>
    obtain rfl := Option.some.inj hstep
    refine h.setGroup rfl rfl rfl fun queued hholds => ?_
    rcases holds_of_step hholds hprocessor with ⟨rfl, hempty⟩ | ⟨order, queued', rfl, hrest⟩
    · exact ⟨[], [], rfl, hempty⟩
    · exact ⟨[order], queued', rfl, hrest⟩

/-- The first thread goes on. -/
theorem Queued.goOn (h : Queued sys enqueued) (hbox : sys.outbox = []) {oms : Oms}
    (homs : Oms.Issues sys.oms oms) (pc : OmsPc) : Queued (sys.goOn oms pc) enqueued := by
  refine ⟨?_, h.groups⟩
  obtain ⟨new, hnew⟩ := Oms.Issues.prefix_dispatched homs
  have hold : sys.oms.dispatched ++ new = oms.dispatched := hnew
  have hdispatched := h.dispatched
  rw [hbox, List.append_nil] at hdispatched
  rw [dispatchedOrders, System.goOn, ← hold, List.drop_left, List.map_append, ← hdispatched]
  rfl

theorem slot_lt_of_omsStep {a : Action} (hstep : sys.omsStep std a = some sys') {slot : ℕ}
    (hpc : sys'.pc = .poll slot) : slot < maxSymbols := by
  have hconsume : ∀ g, afterConsume g = .poll slot → slot < maxSymbols := by
    intro g h
    unfold afterConsume at h
    split_ifs at h
    obtain rfl := OmsPc.poll.inj h
    decide
  have hpoll : ∀ s, afterPoll s = .poll slot → slot < maxSymbols := by
    intro s h
    unfold afterPoll at h
    split_ifs at h with hlt
    obtain rfl := OmsPc.poll.inj h
    exact hlt
  cases a with
  | receive newOrder =>
    simp only [System.omsStep] at hstep
    split at hstep
    next => obtain rfl := Option.some.inj hstep; cases hpc
    next => obtain rfl := Option.some.inj hstep; cases hpc
    next => cases hstep
  | consume trade =>
    simp only [System.omsStep] at hstep
    split at hstep
    next =>
      obtain ⟨oms, -, rfl⟩ := Option.map_eq_some_iff.1 hstep
      cases hpc
    next =>
      obtain rfl := Option.some.inj hstep
      exact hconsume _ hpc
    next => cases hstep
  | poll =>
    simp only [System.omsStep] at hstep
    split at hstep
    next =>
      obtain rfl := Option.some.inj hstep
      exact hpoll _ hpc
    next => cases hstep
  | _ => cases hstep

/-- A step of the first thread when nothing waits. -/
theorem Flows.goOn (h : Flows st₀ received sys) {a : Action} (hbox : sys.outbox = [])
    (hstep : sys.omsStep std a = some sys') :
    Flows st₀ (received ++ receivedOrders [a]) sys' := by
  have hslot : ∀ slot, sys'.pc = .poll slot → slot < maxSymbols :=
    fun _ => slot_lt_of_omsStep hstep
  obtain ⟨enqueued, hqueued⟩ := h.queued
  obtain ⟨oms, pc, hsame, hissues⟩ := issues_omsStep hstep
  have hqueued' : ∃ enqueued, Queued sys' enqueued :=
    ⟨enqueued, hsame ▸ hqueued.goOn hbox hissues pc⟩
  refine ⟨?_, hslot, hqueued'⟩
  cases a with
  | receive newOrder =>
    simp only [System.omsStep] at hstep
    split at hstep
    next newOrder hpc =>
      obtain rfl := Option.some.inj hstep
      exact h.flow.receive std newOrder
    next =>
      obtain rfl := Option.some.inj hstep
      exact (List.append_nil received).symm ▸ h.flow
    next => cases hstep
  | consume trade =>
    have hnone : received ++ receivedOrders [.consume trade] = received := List.append_nil _
    rw [hnone]
    simp only [System.omsStep] at hstep
    split at hstep
    next g t hpc =>
      obtain ⟨oms, homs, rfl⟩ := Option.map_eq_some_iff.1 hstep
      obtain ⟨hparents, hslices⟩ := h.flow.parents.checkFill (ok_of_toOption homs)
      exact h.flow.slices hslices hparents
    next =>
      obtain rfl := Option.some.inj hstep
      exact h.flow
    next => cases hstep
  | poll =>
    have hnone : received ++ receivedOrders [.poll] = received := List.append_nil _
    rw [hnone]
    simp only [System.omsStep] at hstep
    split at hstep
    next slot hpc =>
      obtain rfl := Option.some.inj hstep
      exact h.flow.pollPrice std (h.slot slot hpc) _
    next => cases hstep
  | _ => cases hstep

theorem Flows.step (h : Flows st₀ received sys) {a : Action}
    (hstep : sys.step std a = some sys') : Flows st₀ (received ++ receivedOrders [a]) sys' := by
  rcases waits_or_goes_on hstep with ha | ⟨hbox, hfirst⟩
  · have hnone : received ++ receivedOrders [a] = received := by
      rcases ha with rfl | ⟨i, -, hof⟩
      · exact List.append_nil _
      · cases a with
        | receive _ | consume _ | poll | enqueue => exact hof.elim
        | _ => exact List.append_nil _
    have homs := oms_of_waits ha hstep
    rw [hnone]
    obtain ⟨enqueued, hqueued⟩ := h.queued
    cases a with
    | enqueue =>
      refine ⟨homs ▸ h.flow, ?_, hqueued.enqueue hstep⟩
      obtain ⟨_, _, _, _, -, -, rfl⟩ := enqueue_cases hstep
      exact h.slot
    | take i =>
      refine ⟨homs ▸ h.flow, ?_, enqueued, hqueued.take hstep⟩
      simp only [System.step, System.take] at hstep
      split_ifs at hstep
      split at hstep
      next => cases hstep
      next =>
        obtain rfl := Option.some.inj hstep
        exact h.slot
    | fault i published =>
      simp only [System.step, System.fault] at hstep
      split_ifs at hstep
      split at hstep
      next =>
        split_ifs at hstep
        obtain rfl := Option.some.inj hstep
        exact ⟨h.flow, h.slot, enqueued, hqueued.setGroup rfl rfl rfl fun queued hholds =>
          ⟨[], queued, rfl, hholds⟩⟩
      next => cases hstep
    | publish i =>
      simp only [System.step, System.publish] at hstep
      split at hstep
      next =>
        obtain rfl := Option.some.inj hstep
        exact ⟨h.flow, h.slot, enqueued, hqueued.setGroup rfl rfl rfl fun queued hholds =>
          ⟨[], queued, rfl, hholds⟩⟩
      next => cases hstep
    | store i =>
      simp only [System.step, System.store] at hstep
      split at hstep
      next =>
        obtain rfl := Option.some.inj hstep
        exact ⟨h.flow, h.slot, enqueued, hqueued.setGroup rfl rfl rfl fun queued hholds =>
          ⟨[], queued, rfl, hholds⟩⟩
      next => cases hstep
    | _ => exact absurd ha (by rintro (hne | ⟨_, -, hof⟩) <;> [cases hne; exact hof])
  · exact h.goOn hbox hfirst

theorem Flows.run : ∀ {actions : List Action} {received : List ClientOrder} {sys : System},
    Flows st₀ received sys → sys.run std actions = some sys' →
      Flows st₀ (received ++ receivedOrders actions) sys'
  | [], received, sys, h, hrun => by
    obtain rfl := Option.some.inj hrun
    exact (List.append_nil received).symm ▸ h
  | a :: actions, received, sys, h, hrun => by
    obtain ⟨sys₁, hstep, hrest⟩ := Option.bind_eq_some_iff.1 hrun
    have happend : receivedOrders (a :: actions) =
        receivedOrders [a] ++ receivedOrders actions := by
      rw [← List.singleton_append, receivedOrders, List.filterMap_append]
      rfl
    rw [happend, ← List.append_assoc]
    exact (h.step hstep).run hrest

end Run

theorem sampleGroups_holds : ∀ i < groupCount, (sampleGroups i).groupQueue.Holds [] := by
  intro i _
  obtain ⟨g, hg, hinv⟩ :=
    newGroup_inv (fun _ _ => ⟨zeroOrder, 0, 0⟩) (fun _ => 95) (fun _ => 105)
    (fun _ => zeroOrder) 4 i
  rw [sampleGroups, hg, Except.toOption, Option.getD_some]
  exact hinv.queue

end System

end TradeX
