import TradeX.StopCompleteness
import Mathlib.Algebra.BigOperators.Group.Finset.Basic
import Mathlib.Algebra.Order.Group.Multiset

/-!
# The registry of stops

`registerStopLoss` and `checkAndTriggerSL`, called in any order. The stops of a slot are two heaps,
with opposite comparisons, and each loop of `checkAndTriggerSL` pops while the front stop is hit. So
what it takes is in the order of the heap (`takeStops_sorted`), and it takes all the stops that are
hit and no other (`takeStops_exact`).

`stop_registry_exact` : each call of `checkAndTriggerSL` dispatches the stops that are hit, the
sells from the highest trigger down and then the buys from the lowest up, and every stop registered
has been dispatched or is pending, once.
-/

namespace TradeX

namespace Oms

variable {std : StdHeap ClientOrder} {st st' : Oms}

/-! ## A loop of `checkAndTriggerSL` -/

section TakeStops

variable {comp : ClientOrder → ClientOrder → Bool} {hit : ClientOrder → Bool}

/-- No stop is lost. -/
theorem takeStops_perm (std : StdHeap ClientOrder) (comp : ClientOrder → ClientOrder → Bool)
    (hit : ClientOrder → Bool) : ∀ (n : ℕ) (stops : List ClientOrder),
    ((takeStops std comp hit n stops).1 ++ (takeStops std comp hit n stops).2).Perm stops
  | 0, stops => .refl stops
  | n + 1, [] => .refl []
  | n + 1, front :: stops => by
    rw [takeStops]
    split_ifs
    · obtain ⟨v, hpop, hperm⟩ := std.popHeap_perm comp front stops
      rw [hpop, List.dropLast_concat]
      exact ((takeStops_perm std comp hit n v).trans hperm).cons front
    · exact .refl _

/-- The stops are taken in the order of the heap. -/
theorem takeStops_sorted (std : StdHeap ClientOrder) (hit : ClientOrder → Bool)
    (hcomp : IsComparison comp) : ∀ {n : ℕ} {stops : List ClientOrder},
    IsHeap comp stops → (takeStops std comp hit n stops).1.Pairwise (NotBelow comp)
  | 0, stops, _ => List.Pairwise.nil
  | n + 1, [], _ => List.Pairwise.nil
  | n + 1, front :: stops, hheap => by
    rw [takeStops]
    split_ifs with hhit
    · refine List.pairwise_cons.2 ⟨fun stop hstop => ?_,
        takeStops_sorted std hit hcomp (std.isHeap_popHeap comp front stops hcomp hheap)⟩
      -- the front is the root of the heap that the others come from
      obtain ⟨v, hpop, hperm⟩ := std.popHeap_perm comp front stops
      rw [hpop, List.dropLast_concat] at hstop
      have hmem : stop ∈ front :: stops :=
        List.mem_cons_of_mem _ (hperm.mem_iff.1 (mem_takeStops.1 hstop).1)
      obtain ⟨i, hi, rfl⟩ := List.getElem_of_mem hmem
      exact hheap.root hcomp rfl i _ (List.getElem?_eq_getElem hi)
    · exact List.Pairwise.nil

/-- The stops that are hit are taken, and the others are left. -/
theorem takeStops_exact (std : StdHeap ClientOrder) (hcomp : IsComparison comp)
    (hmono : ∀ a b, comp a b = false → hit a = false → hit b = false)
    {stops : List ClientOrder} (hheap : IsHeap comp stops) :
    (takeStops std comp hit stops.length stops).1.Perm (stops.filter hit) ∧
      (takeStops std comp hit stops.length stops).2.Perm (stops.filter fun stop => !hit stop) := by
  have hperm := takeStops_perm std comp hit stops.length stops
  have htaken : ∀ stop ∈ (takeStops std comp hit stops.length stops).1, hit stop = true :=
    fun stop hstop => (mem_takeStops.1 hstop).2
  have hleft : ∀ stop ∈ (takeStops std comp hit stops.length stops).2, hit stop = false :=
    (takeStops_left hcomp hmono le_rfl hheap).2
  constructor
  · have hfilter := hperm.filter hit
    rwa [List.filter_append, List.filter_eq_self.2 htaken,
      List.filter_eq_nil_iff.2 fun stop hstop => by
        simp [hleft stop hstop], List.append_nil] at hfilter
  · have hfilter := hperm.filter fun stop => !hit stop
    rwa [List.filter_append, List.filter_eq_nil_iff.2 fun stop hstop => by simp [htaken stop hstop],
      List.filter_eq_self.2 fun stop hstop => by
        simp [hleft stop hstop], List.nil_append] at hfilter

end TakeStops

/-! ## A call of `checkAndTriggerSL` -/

/-- The dispatch of a stop : a limit order with the client's price, side, quantity, trader and
id. -/
structure Fires (stop : ClientOrder) (d : Dispatch) : Prop where
  client : d.client = stop
  site : d.site = .stopLoss
  executionType : d.order.executionType = .limit
  price : d.order.price = stop.price
  type : d.order.type = stop.type
  quantity : d.order.quantity = stop.quantity
  traderId : d.order.traderId = stop.traderId
  clientOrderId : d.order.clientOrderId = stop.clientOrderId

theorem triggerStop_fires (st : Oms) (stop : ClientOrder) :
    ∃ d, (st.triggerStop stop).dispatched = st.dispatched ++ [d] ∧ Fires stop d :=
  ⟨_, rfl, ⟨rfl, rfl, rfl, rfl, rfl, rfl, rfl, rfl⟩⟩

theorem triggerStops_fires : ∀ (stops : List ClientOrder) (st : Oms), ∃ new,
    (stops.foldl triggerStop st).dispatched = st.dispatched ++ new ∧
    List.Forall₂ Fires stops new
  | [], st => ⟨[], (List.append_nil _).symm, .nil⟩
  | stop :: stops, st => by
    obtain ⟨new, hnew, hfires⟩ := triggerStops_fires stops (st.triggerStop stop)
    obtain ⟨d, hd, hfire⟩ := triggerStop_fires st stop
    refine ⟨d :: new, ?_, .cons hfire hfires⟩
    rw [List.foldl_cons, hnew, hd, ← List.append_cons]

/-- A call dispatches the sells that are hit, highest trigger first, and then the buys, lowest
trigger first, and leaves the others pending. -/
structure Fired (st : Oms) (slot price : ℕ) (sells buys : List ClientOrder) (new : List Dispatch)
    (st' : Oms) : Prop where
  dispatched : st'.dispatched = st.dispatched ++ new
  orders : List.Forall₂ Fires (sells ++ buys) new
  sellsHit : sells.Perm ((st.stopsAt slot .sell).filter fun stop => stop.triggerPrice ≥ price)
  sellsSorted : sells.Pairwise fun a b => a.triggerPrice ≥ b.triggerPrice
  buysHit : buys.Perm ((st.stopsAt slot .buy).filter fun stop => stop.triggerPrice ≤ price)
  buysSorted : buys.Pairwise fun a b => a.triggerPrice ≤ b.triggerPrice
  sellsKept : (st'.stopsAt slot .sell).Perm
    ((st.stopsAt slot .sell).filter fun stop => ¬ stop.triggerPrice ≥ price)
  buysKept : (st'.stopsAt slot .buy).Perm
    ((st.stopsAt slot .buy).filter fun stop => ¬ stop.triggerPrice ≤ price)
  others : ∀ slot' ≠ slot, st'.stopLossRegistry slot' = st.stopLossRegistry slot'

theorem Heaps.checkAndTriggerSL (h : Heaps st) (std : StdHeap ClientOrder) (slot price : ℕ) :
    Heaps (st.checkAndTriggerSL std slot price) := by
  intro slot'
  obtain ⟨hsell, hbuy, -⟩ := triggeredAt_withoutHit std price (h slot).1 (h slot).2
  rw [registry_checkAndTriggerSL]
  rcases eq_or_ne slot' slot with rfl | hne
  · rw [Function.update_self]
    exact ⟨hsell, hbuy⟩
  · rw [Function.update_of_ne hne]
    exact h slot'

theorem Heaps.fired (h : Heaps st) (std : StdHeap ClientOrder) (slot price : ℕ) :
    ∃ sells buys new, Fired st slot price sells buys new
      (st.checkAndTriggerSL std slot price) := by
  have hregistry := registry_checkAndTriggerSL std st slot price
  have hmax : ∀ a b : ClientOrder, maxTrigger a b = false →
      decide (price ≤ a.triggerPrice) = false →
      decide (price ≤ b.triggerPrice) = false := by
    simp only [maxTrigger, decide_eq_false_iff_not]
    omega
  have hmin : ∀ a b : ClientOrder, minTrigger a b = false →
      decide (price ≥ a.triggerPrice) = false →
      decide (price ≥ b.triggerPrice) = false := by
    simp only [minTrigger, decide_eq_false_iff_not]
    omega
  obtain ⟨hsells, hsellsKept⟩ := takeStops_exact std isComparison_maxTrigger hmax (h slot).1
  obtain ⟨hbuys, hbuysKept⟩ := takeStops_exact std isComparison_minTrigger hmin (h slot).2
  have hsellsSorted := takeStops_sorted std (fun stop => price ≤ stop.triggerPrice)
    (n := (st.stopLossRegistry slot).sellStops.length) isComparison_maxTrigger (h slot).1
  have hbuysSorted := takeStops_sorted std (fun stop => price ≥ stop.triggerPrice)
    (n := (st.stopLossRegistry slot).buyStops.length) isComparison_minTrigger (h slot).2
  obtain ⟨new, hnew, hfires⟩ := triggerStops_fires _ { st with
    stopLossRegistry := Function.update st.stopLossRegistry slot
      (withoutHit std (st.stopLossRegistry slot) price) }
  refine ⟨_, _, new, hnew, hfires, hsells, ?_, hbuys, ?_, ?_, ?_, fun slot' hne => ?_⟩
  · refine hsellsSorted.imp fun {a b} hab => ?_
    simpa [NotBelow, maxTrigger] using hab
  · refine hbuysSorted.imp fun {a b} hab => ?_
    simpa [NotBelow, minTrigger] using hab
  · simp only [stopsAt, hregistry, Function.update_self, decide_not]
    exact hsellsKept
  · simp only [stopsAt, hregistry, Function.update_self, decide_not]
    exact hbuysKept
  · rw [hregistry, Function.update_of_ne hne]

/-! ## Calls in any order -/

/-- A call of `registerStopLoss`, or of `checkAndTriggerSL` for an entry of the registry. -/
inductive StopCall
  | register (ord : ClientOrder)
  | trigger (slot : Fin maxSymbols) (price : ℕ)

/-- A call of `registerStopLoss` or `checkAndTriggerSL`. -/
def stopCall (std : StdHeap ClientOrder) (st : Oms) : StopCall → Oms
  | .register ord => st.registerStopLoss std ord
  | .trigger slot price => st.checkAndTriggerSL std slot price

/-- Calls in any order. -/
def stopCalls (std : StdHeap ClientOrder) (st : Oms) (calls : List StopCall) : Oms :=
  calls.foldl (stopCall std) st

/-- The stops registered. -/
def registered (calls : List StopCall) : List ClientOrder :=
  calls.filterMap fun
    | .register ord => some ord
    | .trigger _ _ => none

/-- The stops of an entry. -/
def stopsIn (container : StopLossContainer) : Multiset ClientOrder :=
  container.sellStops + container.buyStops

/-- The stops that are pending. -/
def pending (st : Oms) : Multiset ClientOrder :=
  ∑ slot ∈ Finset.range maxSymbols, stopsIn (st.stopLossRegistry slot)

/-- The stops that have been dispatched. -/
def dispatchedStops (st : Oms) : Multiset ClientOrder :=
  (st.dispatched.map Dispatch.client : List ClientOrder)

/-- The stops are in the entries of their side and symbol. -/
def Sided (st : Oms) : Prop :=
  ∀ slot side, ∀ stop ∈ st.stopsAt slot side, stop.type = side ∧
    stop.symbolId % maxSymbols = slot

/-- Only one entry changes. -/
theorem pending_update {slot : ℕ} (hslot : slot < maxSymbols)
    (hothers : ∀ slot' ≠ slot, st'.stopLossRegistry slot' = st.stopLossRegistry slot') :
    st'.pending + stopsIn (st.stopLossRegistry slot) =
      st.pending + stopsIn (st'.stopLossRegistry slot) := by
  have hmem := Finset.mem_range.2 hslot
  have hrest : ∑ slot' ∈ (Finset.range maxSymbols).erase slot,
      stopsIn (st'.stopLossRegistry slot') =
      ∑ slot' ∈ (Finset.range maxSymbols).erase slot,
        stopsIn (st.stopLossRegistry slot') :=
    Finset.sum_congr rfl fun slot' h => by rw [hothers slot' (Finset.ne_of_mem_erase h)]
  rw [pending, pending, ← Finset.add_sum_erase _ _ hmem, hrest, ← Finset.add_sum_erase _ _ hmem,
    add_right_comm, add_comm (stopsIn (st'.stopLossRegistry slot)), add_right_comm]

theorem stopsIn_withStop (std : StdHeap ClientOrder) (container : StopLossContainer)
    (ord : ClientOrder) : stopsIn (withStop std container ord) = stopsIn container + {ord} := by
  have hpush : ∀ comp stops, ((std.pushHeap comp (stops ++ [ord]) : List ClientOrder) :
      Multiset ClientOrder) = stops + {ord} := fun comp stops => by
    rw [Multiset.coe_eq_coe.2 (std.pushHeap_perm comp _), ← Multiset.coe_add,
      Multiset.coe_singleton]
  unfold stopsIn withStop
  cases ord.type with
  | buy => rw [hpush, add_assoc]
  | sell => rw [hpush, add_right_comm]

/-- A stop that is registered is pending. -/
theorem pending_registerStopLoss (std : StdHeap ClientOrder) (st : Oms) (ord : ClientOrder) :
    (st.registerStopLoss std ord).pending = st.pending + {ord} := by
  have hslot : ord.symbolId % maxSymbols < maxSymbols := Nat.mod_lt _ (by decide)
  have hupdate := @pending_update st (st.registerStopLoss std ord) _ hslot
    fun slot' hne => by rw [registry_registerStopLoss, Function.update_of_ne hne]
  rw [registry_registerStopLoss, Function.update_self, stopsIn_withStop, ← add_assoc,
    add_right_comm] at hupdate
  exact add_right_cancel hupdate

theorem map_client_of_fires {stops : List ClientOrder} {new : List Dispatch}
    (h : List.Forall₂ Fires stops new) : new.map Dispatch.client = stops := by
  induction h with
  | nil => rfl
  | cons hfire _ ih => rw [List.map_cons, ih, hfire.client]

/-- The stops that are hit and those that are not. -/
theorem coe_add_of_filter {p : ClientOrder → Prop} [DecidablePred p]
    {taken left stops : List ClientOrder} (htaken : taken.Perm (stops.filter p))
    (hleft : left.Perm (stops.filter fun stop => ¬ p stop)) :
    (left + taken : Multiset ClientOrder) = stops := by
  simp only [decide_not] at hleft
  rw [Multiset.coe_add, Multiset.coe_eq_coe]
  exact ((hleft.append htaken).trans List.perm_append_comm).trans (List.filter_append_perm _ stops)

/-- A stop that is hit is no longer pending, and dispatched. -/
theorem Fired.conserves {slot price : ℕ} (hslot : slot < maxSymbols)
    {sells buys : List ClientOrder}
    {new : List Dispatch} (h : Fired st slot price sells buys new st') :
    st'.dispatchedStops + st'.pending = st.dispatchedStops + st.pending := by
  have hdispatched : st'.dispatchedStops =
      st.dispatchedStops + (sells + buys : Multiset ClientOrder) := by
    rw [dispatchedStops, h.dispatched, List.map_append,
      map_client_of_fires h.orders, ← Multiset.coe_add, ← Multiset.coe_add]
    rfl
  have hsells : ((st'.stopLossRegistry slot).sellStops + sells : Multiset ClientOrder) =
      (st.stopLossRegistry slot).sellStops := coe_add_of_filter h.sellsHit h.sellsKept
  have hbuys : ((st'.stopLossRegistry slot).buyStops + buys : Multiset ClientOrder) =
      (st.stopLossRegistry slot).buyStops := coe_add_of_filter h.buysHit h.buysKept
  have hentry : stopsIn (st.stopLossRegistry slot) =
      stopsIn (st'.stopLossRegistry slot) + (sells + buys : Multiset ClientOrder) := by
    rw [stopsIn, stopsIn, ← hsells, ← hbuys, add_add_add_comm]
  have hupdate := pending_update hslot h.others
  rw [hentry, add_comm (stopsIn _), ← add_assoc] at hupdate
  have hpending := add_right_cancel hupdate
  rw [hdispatched, ← hpending, add_assoc, add_comm (_ + _ : Multiset ClientOrder) st'.pending]

/-! ### Entries -/

theorem Sided.registerStopLoss (h : Sided st) (std : StdHeap ClientOrder) (ord : ClientOrder) :
    Sided (st.registerStopLoss std ord) := by
  intro slot side stop hstop
  rcases mem_stopsAt_registerStopLoss hstop with hmem | ⟨rfl, hside, hslot⟩
  · exact h slot side stop hmem
  · exact ⟨hside, hslot⟩

theorem Fired.sided {slot price : ℕ} {sells buys : List ClientOrder} {new : List Dispatch}
    (h : Fired st slot price sells buys new st') (hsided : Sided st) : Sided st' := by
  intro slot' side stop hstop
  refine hsided slot' side stop ?_
  rcases eq_or_ne slot' slot with rfl | hne
  · cases side with
    | sell => exact List.mem_of_mem_filter (h.sellsKept.mem_iff.1 hstop)
    | buy => exact List.mem_of_mem_filter (h.buysKept.mem_iff.1 hstop)
  · rw [stopsAt.eq_def, h.others slot' hne] at hstop
    exact hstop

/-! ## Every sequence of calls -/

/-- What holds after every call. -/
structure Kept (calls : List StopCall) (st : Oms) : Prop where
  heaps : Heaps st
  sided : Sided st
  conserved : (registered calls : Multiset ClientOrder) = st.dispatchedStops + st.pending

theorem pending_init (symbolLookupTable : ℕ → ℤ) (bootTimestamp : ℕ)
    (clock uninit : ℕ → ℕ) :
    (init symbolLookupTable bootTimestamp clock uninit).pending = 0 :=
  Finset.sum_eq_zero fun _ _ => rfl

theorem kept_init (symbolLookupTable : ℕ → ℤ) (bootTimestamp : ℕ)
    (clock uninit : ℕ → ℕ) : Kept [] (init symbolLookupTable bootTimestamp clock uninit) where
  heaps := heaps_init symbolLookupTable bootTimestamp clock uninit
  sided slot side stop hstop := by cases side <;> exact absurd hstop List.not_mem_nil
  conserved := by
    rw [pending_init, add_zero]
    rfl

theorem Kept.call {calls : List StopCall} (h : Kept calls st) (std : StdHeap ClientOrder)
    (call : StopCall) : Kept (calls ++ [call]) (st.stopCall std call) := by
  rcases call with ord | ⟨slot, price⟩
  · refine ⟨h.heaps.registerStopLoss ord, h.sided.registerStopLoss std ord, ?_⟩
    have hregistered : registered (calls ++ [.register ord]) = registered calls ++ [ord] :=
      List.filterMap_append
    rw [hregistered, ← Multiset.coe_add, h.conserved, stopCall, pending_registerStopLoss,
      add_assoc]
    rfl
  · obtain ⟨sells, buys, new, hfired⟩ := h.heaps.fired std slot price
    refine ⟨h.heaps.checkAndTriggerSL std slot price, hfired.sided h.sided, ?_⟩
    have hregistered : registered (calls ++ [.trigger slot price]) = registered calls :=
      List.filterMap_append.trans (List.append_nil _)
    rw [hregistered, h.conserved]
    exact (hfired.conserves slot.2).symm

theorem Kept.calls (std : StdHeap ClientOrder) :
    ∀ {calls : List StopCall} (calls' : List StopCall)
    {st : Oms}, Kept calls st → Kept (calls ++ calls') (st.stopCalls std calls')
  | calls, [], st, h => by rwa [List.append_nil]
  | calls, call :: calls', st, h => by
    rw [← List.singleton_append, ← List.append_assoc]
    exact Kept.calls std calls' (h.call std call)

/-- Stops are registered, and prices found in slots, in any order. Each call of `checkAndTriggerSL`
dispatches exactly the pending sells of the slot that are hit, from the highest trigger down, and
then exactly the pending buys that are hit, from the lowest up, and keeps the others. The stops of
a slot are those registered for it and its side, and over the whole run the stops registered are
those dispatched and those pending. -/
theorem stop_registry_exact (std : StdHeap ClientOrder) (symbolLookupTable : ℕ → ℤ)
    (bootTimestamp : ℕ) (clock uninit : ℕ → ℕ) (calls : List StopCall) :
    (∀ pre (slot : Fin maxSymbols) price post, calls = pre ++ .trigger slot price :: post →
      ∃ sells buys new,
        Fired ((init symbolLookupTable bootTimestamp clock uninit).stopCalls std pre) slot price
          sells buys new
          ((init symbolLookupTable bootTimestamp clock uninit).stopCalls std
            (pre ++ [.trigger slot price]))) ∧
    Sided ((init symbolLookupTable bootTimestamp clock uninit).stopCalls std calls) ∧
    (registered calls : Multiset ClientOrder) =
      ((init symbolLookupTable bootTimestamp clock uninit).stopCalls std calls).dispatchedStops +
        ((init symbolLookupTable bootTimestamp clock uninit).stopCalls std calls).pending := by
  have hinit := kept_init symbolLookupTable bootTimestamp clock uninit
  have hcalls := hinit.calls std calls
  refine ⟨fun pre slot price post _ => ?_, hcalls.sided, hcalls.conserved⟩
  have hpre := hinit.calls std pre
  obtain ⟨sells, buys, new, hfired⟩ := hpre.heaps.fired std slot price
  refine ⟨sells, buys, new, ?_⟩
  rw [stopCalls, stopCalls, List.foldl_concat]
  exact hfired

/-- A stop of one symbol. -/
def plainStop (clientOrderId : ℕ) (type : OrderType) (triggerPrice : ℕ) : ClientOrder :=
  ⟨clientOrderId, triggerPrice, triggerPrice, [], 7, 1, type, 10, 0, 0, .stopLoss, true⟩

theorem seven_lt_maxSymbols : 7 < maxSymbols := by
  decide

/-- Three sells and three buys are registered, and the price is 100. -/
def sixStops : List StopCall :=
  [.register (plainStop 1 .sell 90), .register (plainStop 2 .buy 100),
    .register (plainStop 3 .sell 105), .register (plainStop 4 .buy 95),
    .register (plainStop 5 .sell 100), .register (plainStop 6 .buy 110),
      .trigger ⟨7, seven_lt_maxSymbols⟩ 100]

-- the sells at 105 and 100, then the buys at 95 and 100
example : let st := (init (fun _ => 7) 0 id id).stopCalls (.sorting _) sixStops
    st.dispatched.map (·.order.clientOrderId) = [3, 5, 4, 2] ∧
      (st.stopsAt 7 .sell).map (·.clientOrderId) = [1] ∧
      (st.stopsAt 7 .buy).map (·.clientOrderId) = [6] := by
  decide +kernel

end Oms

end TradeX
