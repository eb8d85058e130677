import TradeX.EngineRuns
import TradeX.Isolation
import TradeX.OrderIds
import TradeX.StopLoss

/-!
# The matching loops make progress

The loops of `process_buy`, `process_sell`, `process_market_buy` and `process_market_sell` do not
look at what `removeBuyOrder` and `removeSellOrder` return : if the head of a level were not
found under its id, it would be traded again and again. `Progresses` says that a loop never comes
to that : every pass finds an order at the head of its level, it is removed, and the loop ends. On a
book that represents two priority lists every loop does (`RepresentsUpTo.progresses`).

The books of the engine represent priority lists for as long as the ids of the orders they are
given are distinct. They are : the orders come from the order management system, over the queues of
the groups, and no two of them have one id (`Oms.Issues.nodup`). So all loops make progress in every
run of the system (`loops_progress`).
-/

namespace TradeX

/-! ## A loop -/

/-- A matching loop ends within `fuel` passes. Each pass finds an order at the head of the level
of the best price, and shrinks it or removes it. -/
def Progresses (s : OrderType) (guard : ℕ → Bool) : ℕ → ℕ → OrderBook → Order → Prop
  | 0, _, _, _ => False
  | fuel + 1, best, book, order =>
    0 < order.quantity ∧ 0 < book.getTotalQty s ∧ guard best →
      ∃ i head, book.levelOf best = .ok i ∧ (book.priceLevels i).isEmpty = false ∧
        book.headAt best = .ok head ∧
        (order.quantity < head.quantity →
          ∃ book', book.modifyQuantity best (head.quantity - order.quantity) =
            .ok (true, book')) ∧
        (¬order.quantity < head.quantity →
          ∃ book₁ best' book₂, book.removeOrder s best = .ok (true, book₁) ∧
            book₁.bestprice s = .ok (best', book₂) ∧
            Progresses s guard fuel best' book₂
              { order with quantity := order.quantity - head.quantity })

/-- A loop that makes progress returns. -/
theorem Progresses.returns {s : OrderType} {guard : ℕ → Bool} :
    ∀ {fuel best : ℕ} {book : OrderBook}
    {order : Order}, Progresses s guard fuel best book order → ∀ id, ∃ r,
      matchLoop s guard fuel id best book order = .ok r
  | 0, _, _, _, h, _ => h.elim
  | fuel + 1, best, book, order, h, id => by
    rw [matchLoop]
    split_ifs with hc
    · obtain ⟨i, head, -, -, hhead, hshrink, hremove⟩ := h hc
      rw [hhead, ok_bind]
      by_cases hlt : order.quantity < head.quantity
      · obtain ⟨book', hmod⟩ := hshrink hlt
        rw [if_pos hlt, hmod]
        exact ⟨_, rfl⟩
      · obtain ⟨book₁, best', book₂, hrm, hbest, hrest⟩ := hremove hlt
        obtain ⟨r, hr⟩ := Progresses.returns hrest (nextTradeId id)
        rw [if_neg hlt, hrm, ok_bind]
        simp only [hbest, ok_bind, hr]
        exact ⟨_, rfl⟩
    · exact ⟨_, rfl⟩

/-- Every loop makes progress on a book that represents priority lists. -/
theorem RepresentsUpTo.progresses {edges : Prop} {s : OrderType} (guard : ℕ → Bool) :
    ∀ (l : List Order) {b : OrderBook} {R : PriceTime.Book} (_ : RepresentsUpTo edges b R)
      (_ : R s = l) {fuel : ℕ} (_ : l.length < fuel) (order : Order),
      Progresses s guard fuel (bestOf b s l) b order
  | [], b, R, h, hR, fuel + 1, _, order => by
    rintro ⟨-, ht, -⟩
    exact absurd ((h.total_eq_zero_iff s).2 hR) ht.ne'
  | o :: l, b, R, h, hR, fuel + 1, hfuel, order => by
    intro _
    have hf := (h.resting s o (hR ▸ List.mem_cons_self)).2.2.2
    have hne : (b.priceLevels (o.price - b.lowerLimit)).isEmpty = false := by
      rw [← Bool.not_eq_true, h.wf.isEmpty_iff, h.queue_head hR]
      exact List.cons_ne_nil _ _
    refine ⟨_, o, OrderBook.levelOf_ok hf.index hf.level, hne, h.headAt_first hR, fun hlt => ?_,
      fun _ => ?_⟩
    · obtain ⟨b', hmod, -⟩ := h.shrinkHead_spec hR hlt
      exact ⟨b', hmod⟩
    · obtain ⟨b₁, b₂, hrm, hbest, hframe, -, hrep⟩ := h.fillHead_spec hR
      refine ⟨b₁, _, b₂, hrm, hbest, ?_⟩
      rw [← bestOf_of_frame hframe s l]
      exact RepresentsUpTo.progresses guard l hrep (Function.update_self s l R)
        (Nat.lt_of_succ_lt_succ hfuel) _

/-! ## A call -/

/-- `process_order` enters a loop with the best price `best`, on the book `book'`. -/
def EntersLoop (book : OrderBook) (order : Order) (guard : ℕ → Bool) (best : ℕ)
    (book' : OrderBook) : Prop :=
  book.getTotalQty order.type.opposite ≠ 0 ∧
    if order.executionType = .market then
      book.bestprice order.type.opposite = .ok (best, book') ∧
        guard = fun p => decide (book'.isPriceValid p)
    else
      book.isPriceValid order.price ∧ ∃ best₀ book₀,
        book.bestprice order.type.opposite = .ok (best₀, book₀) ∧
        better order.type.opposite best₀ order.price ∧
        book₀.bestprice order.type.opposite = .ok (best, book') ∧
        guard = fun p => decide (better order.type.opposite p order.price)

/-- The loop of a `process_order` call, if it enters one, makes progress. -/
def CallProgresses (book : OrderBook) (order : Order) : Prop :=
  ∀ guard best book', EntersLoop book order guard best book' →
    Progresses order.type.opposite guard (matchFuel book' order) best book' order

theorem RepresentsUpTo.callProgresses {edges : Prop} {b : OrderBook} {R : PriceTime.Book}
    (h : RepresentsUpTo edges b R) (order : Order) : CallProgresses b order := by
  rintro guard best book' ⟨-, henters⟩
  -- the best price changes nothing on the book
  have hentry : best = bestOf b order.type.opposite (R order.type.opposite) ∧ book' = b := by
    split_ifs at henters
    · have hbest := (h.bestprice_eq _).symm.trans henters.1
      exact (Prod.mk.inj (Except.ok.inj hbest)).imp Eq.symm Eq.symm
    · obtain ⟨-, best₀, book₀, hbest₀, -, hbest, -⟩ := henters
      obtain ⟨-, rfl⟩ := Prod.mk.inj (Except.ok.inj ((h.bestprice_eq _).symm.trans hbest₀))
      have hbest := (h.bestprice_eq _).symm.trans hbest
      exact (Prod.mk.inj (Except.ok.inj hbest)).imp Eq.symm Eq.symm
  rw [hentry.1, hentry.2]
  exact RepresentsUpTo.progresses guard _ h rfl (h.length_lt_fuel _ order) order

/-! ## A group -/

theorem RestsFrom.mono {done done' : List Order} {R : PriceTime.Book} (h : RestsFrom done R)
    (hsub : done ⊆ done') : RestsFrom done' R := by
  intro r o ho
  obtain ⟨o', ho', hpart⟩ := h r o ho
  exact ⟨o', hsub ho', hpart⟩

open MatchingEngineDispatcher

section Group

variable {nodes : ℕ → ℕ → OrderNode} {lowerLimits upperLimits : ℕ → ℕ}

/-- Group `i` has processed the orders `taken`, and the others are in its queue. -/
structure Fed (nodes : ℕ → ℕ → OrderNode) (lowerLimits upperLimits : ℕ → ℕ) (i : ℕ)
    (g : GroupProcessor) (taken queued : List Order) : Prop where
  queue : g.groupQueue.Holds queued
  maxBooks : g.bookmanager.maxBooks = maxSymbols
  books : ∀ k < maxSymbols, ∃ book R, g.bookmanager.books k = some book ∧
    OrderBook.SameFrame (soloEngine nodes lowerLimits upperLimits ((i <<< symbolBits) + k)).book
      book ∧
    Represents book R ∧ RestsFrom taken R

variable {i : ℕ} {g : GroupProcessor} {taken queued : List Order} {order : Order}

/-- The next call of a group finds its book, makes progress and leaves a book of the same kind. -/
theorem Fed.call (h : Fed nodes lowerLimits upperLimits i g taken (order :: queued))
    (hband : ∀ s < totalSymbols, Band 10000 (lowerLimits s) (upperLimits s)) (hi : i < groupCount)
    (ho : Orderly (taken ++ order :: queued)) (id : ℕ) :
    ∃ book book' executions R, g.bookmanager.get (order.symbolId % maxSymbols) = .ok book ∧
      CallProgresses book order ∧ processOrder id book order = .ok (book', executions) ∧
      OrderBook.SameFrame (soloEngine nodes lowerLimits upperLimits
        ((i <<< symbolBits) + order.symbolId % maxSymbols)).book book' ∧
      Represents book' R ∧ RestsFrom (taken ++ [order]) R := by
  have hk : order.symbolId % maxSymbols < maxSymbols := Nat.mod_lt _ (by decide)
  obtain ⟨book, R, hbook, hframe, hrep, hfrom⟩ := h.books _ hk
  have hget : g.bookmanager.get (order.symbolId % maxSymbols) = .ok book := by
    rw [OrderBookManager.get, h.maxBooks, if_neg (Nat.not_le.2 hk), hbook]
  have hmem : order ∈ taken ++ order :: queued := by simp
  have hsymbol : (i <<< symbolBits) + order.symbolId % maxSymbols < totalSymbols := by
    rw [Nat.shiftLeft_eq]
    simp only [totalSymbols, maxSymbols, groupCount, symbolBits] at hi hk ⊢
    omega
  have hadm := (hband _ hsymbol).admissible hframe (ho.positive order hmem)
  obtain ⟨book', hcall, hframe', hrep'⟩ := (represents_iff.1 hrep).processOrder_spec
    (ho.inRange order hmem) (admissible_iff.1 hadm) (hfrom.fresh_of_nodup ho.ids) id
  exact ⟨book, book', _, _, hget, (represents_iff.1 hrep).callProgresses order, hcall,
    hframe.trans hframe', represents_iff.2 hrep', hfrom.applyOn book id order⟩

/-- A pass of a group's thread returns. -/
theorem Fed.step (h : Fed nodes lowerLimits upperLimits i g taken queued)
    (hband : ∀ s < totalSymbols, Band 10000 (lowerLimits s) (upperLimits s)) (hi : i < groupCount)
    (ho : Orderly (taken ++ queued)) {r : Option (Order × RingBuffer Order)}
    (hpop : g.groupQueue.pop = .ok r) :
    ∃ g' taken' queued', g.step = .ok g' ∧ taken' ++ queued' = taken ++ queued ∧
      Fed nodes lowerLimits upperLimits i g' taken' queued' := by
  rw [GroupProcessor.step, hpop, ok_bind]
  rcases h.queue.of_pop hpop with ⟨-, rfl⟩ | ⟨order, queued', queue, rfl, rfl, hqueue⟩
  · exact ⟨g, taken, queued, rfl, rfl, h⟩
  · obtain ⟨book, book', executions, R, hget, -, hcall, hframe, hrep, hfrom⟩ :=
      h.call hband hi ho g.nextTradeId
    refine ⟨_, taken ++ [order], queued',
      bind_eq_ok.2 ⟨book, hget, bind_eq_ok.2 ⟨(book', executions), hcall, rfl⟩⟩,
      by simp, hqueue, h.maxBooks, fun k hk => ?_⟩
    rcases eq_or_ne k (order.symbolId % maxSymbols) with rfl | hne
    · exact ⟨book', R, Function.update_self .., hframe, hrep, hfrom⟩
    · obtain ⟨other, R', hbook, hframe', hrep', hfrom'⟩ := h.books k hk
      exact ⟨other, R', (Function.update_of_ne hne ..).trans hbook, hframe', hrep',
        hfrom'.mono (List.subset_append_left _ _)⟩

/-- What `initialize_engine` leaves. -/
theorem fed_newGroup {buffer : ℕ → Order} {capacity : ℕ}
    (hg : newGroup buffer capacity (fun s => ⟨nodes s, fun _ => 0⟩) lowerLimits upperLimits i =
      .ok g) :
    Fed nodes lowerLimits upperLimits i g [] [] := by
  obtain ⟨m, hm, hmax, hbooks⟩ :=
    addBooks_eq (fun s => ⟨nodes s, fun _ => 0⟩) lowerLimits upperLimits (i <<< symbolBits)
  rw [newGroup, hm, ok_bind] at hg
  obtain rfl := Except.ok.inj hg
  refine ⟨RingBuffer.new_holds buffer capacity, hmax, fun k hk => ?_⟩
  exact ⟨_, _, hbooks k hk, .refl _, represents_new _ _ _ (by decide) (by decide),
    fun _ o ho => absurd ho List.not_mem_nil⟩

end Group

/-! ## The system -/

namespace System

section Run

variable {nodes : ℕ → ℕ → OrderNode} {lowerLimits upperLimits : ℕ → ℕ}
  {std : StdHeap ClientOrder} {oms₀ : Oms} {sys sys' : System} {enqueued : List Order} {i : ℕ}

/-- The orders that have been dispatched. -/
def dispatchedOrders (sys : System) : List Order :=
  sys.oms.dispatched.map fun d => d.order

/-- The orders `enqueued` have been put into the queues of their groups, and the other orders that
have been dispatched wait. -/
structure Feeding (nodes : ℕ → ℕ → OrderNode) (lowerLimits upperLimits : ℕ → ℕ)
    (oms₀ : Oms) (sys : System) (enqueued : List Order) : Prop where
  issues : Oms.Issues oms₀ sys.oms
  dispatched : sys.dispatchedOrders = enqueued ++ sys.outbox
  groups : ∀ i < groupCount, ∃ taken queued,
    taken ++ queued = enqueued.filter (fun o => groupOf o.symbolId = i) ∧
      Fed nodes lowerLimits upperLimits i (sys.groups i).processor taken queued

/-- The orders of a group are orderly if the dispatched ones are. -/
theorem Feeding.orderly (h : Feeding nodes lowerLimits upperLimits oms₀ sys enqueued)
    (ho : Orderly sys.dispatchedOrders) {taken queued : List Order}
    (hsplit : taken ++ queued = enqueued.filter fun o => groupOf o.symbolId = i) :
    Orderly (taken ++ queued) := by
  rw [hsplit]
  refine ho.sublist (List.Sublist.trans List.filter_sublist ?_)
  rw [h.dispatched]
  exact List.sublist_append_left _ _

/-- The first thread goes on. -/
theorem Feeding.goOn (h : Feeding nodes lowerLimits upperLimits oms₀ sys enqueued)
    (hbox : sys.outbox = []) {oms : Oms} (homs : Oms.Issues sys.oms oms) (pc : OmsPc) :
    Feeding nodes lowerLimits upperLimits oms₀ (sys.goOn oms pc) enqueued := by
  refine ⟨h.issues.trans homs, ?_, h.groups⟩
  obtain ⟨new, hnew⟩ := Oms.Issues.prefix_dispatched homs
  have hold : sys.oms.dispatched ++ new = oms.dispatched := hnew
  have hdispatched := h.dispatched
  rw [hbox, List.append_nil] at hdispatched
  rw [dispatchedOrders, System.goOn, ← hold, List.drop_left, List.map_append, ← hdispatched]
  rfl

/-- What the first thread does with what it is given issues ids. -/
theorem issues_omsStep {a : Action} (hstep : sys.omsStep std a = some sys') :
    ∃ oms pc, sys' = sys.goOn oms pc ∧ Oms.Issues sys.oms oms := by
  obtain ⟨oms, pc, rfl, hcase⟩ := omsStep_cases hstep
  refine ⟨oms, pc, rfl, ?_⟩
  rcases hcase with rfl | ⟨newOrder, -, rfl⟩ | ⟨t, -, hok⟩ | ⟨slot, -, rfl⟩
  · exact .refl _
  · exact .receive std _ _
  · exact .checkFill hok
  · exact .pollPrice std _ _ _

theorem issues_step {a : Action} (hstep : sys.step std a = some sys') :
    Oms.Issues sys.oms sys'.oms := by
  rcases step_cases hstep with hi | ⟨i, -, hstore⟩ | homs
  · exact .of_eq (by rw [hi.oms])
  · unfold System.store at hstore
    dsimp only at hstore
    split at hstore
    · obtain rfl := Option.some.inj hstore
      exact .refl _
    · cases hstore
  · obtain ⟨oms, pc, rfl, hissues⟩ := issues_omsStep homs
    exact hissues

theorem processor_setGroup {t : GroupThread} (ht : t.processor = (sys.groups i).processor)
    (j : ℕ) : ((sys.setGroup i t).groups j).processor = (sys.groups j).processor := by
  change (Function.update sys.groups i t j).processor = _
  rcases eq_or_ne j i with rfl | hne
  · rw [Function.update_self, ht]
  · rw [Function.update_of_ne hne]

/-- A group's thread does something else than to process an order. -/
theorem Feeding.of_same (h : Feeding nodes lowerLimits upperLimits oms₀ sys enqueued)
    (homs : sys'.oms = sys.oms) (hbox : sys'.outbox = sys.outbox)
    (hgroups : ∀ j, (sys'.groups j).processor = (sys.groups j).processor) :
    Feeding nodes lowerLimits upperLimits oms₀ sys' enqueued := by
  refine ⟨homs ▸ h.issues, ?_, fun j hj => ?_⟩
  · rw [dispatchedOrders, homs, hbox]
    exact h.dispatched
  · rw [hgroups]
    exact h.groups j hj

theorem Feeding.enqueue (h : Feeding nodes lowerLimits upperLimits oms₀ sys enqueued)
    (hstep : sys.enqueue = some sys') :
    ∃ enqueued', Feeding nodes lowerLimits upperLimits oms₀ sys' enqueued' := by
  unfold System.enqueue at hstep
  split at hstep
  next => cases hstep
  next order outbox hbox =>
    dsimp only at hstep
    split at hstep
    next => cases hstep
    next accepted queue hpush =>
      obtain rfl := Option.some.inj hstep
      have hdispatched := h.dispatched
      rw [hbox] at hdispatched
      obtain ⟨taken, queued, -, hfed⟩ := h.groups _ (groupOf_lt order.symbolId)
      rcases hfed.queue.of_push hpush with ⟨rfl, rfl, -⟩ | ⟨rfl, -⟩
      · -- the queue is full : `dispatch_order` tries again
        refine ⟨enqueued, h.issues, hdispatched, fun j hj => ?_⟩
        rw [Function.update_eq_self]
        exact h.groups j hj
      · refine ⟨enqueued ++ [order], h.issues, ?_, exists_split_concat h.groups
          (fun taken queued hfed => ?_) fun j hne taken queued hfed => ?_⟩
        · rw [List.append_assoc]
          exact hdispatched
        · simp only [Function.update_self]
          exact ⟨hfed.queue.of_accepted hpush, hfed.maxBooks, hfed.books⟩
        · simp only [Function.update_of_ne hne]
          exact hfed

theorem Feeding.take (h : Feeding nodes lowerLimits upperLimits oms₀ sys enqueued)
    (hband : ∀ s < totalSymbols, Band 10000 (lowerLimits s) (upperLimits s)) (hi : i < groupCount)
    (ho : Orderly sys.dispatchedOrders) (hstep : sys.take i = some sys') :
    Feeding nodes lowerLimits upperLimits oms₀ sys' enqueued := by
  unfold System.take at hstep
  dsimp only at hstep
  split_ifs at hstep
  split at hstep
  next => cases hstep
  next processor hprocessor =>
    obtain rfl := Option.some.inj hstep
    refine ⟨h.issues, h.dispatched, fun j hj => ?_⟩
    obtain ⟨taken, queued, hsplit, hfed⟩ := h.groups j hj
    rcases eq_or_ne j i with rfl | hne
    · obtain ⟨r, hpop, -⟩ := bind_eq_ok.1 hprocessor
      obtain ⟨g', taken', queued', hg', hsame, hfed'⟩ :=
        hfed.step hband hi (h.orderly ho hsplit) hpop
      obtain rfl := Except.ok.inj (hprocessor.symm.trans hg')
      refine ⟨taken', queued', hsame.trans hsplit, ?_⟩
      simp only [System.setGroup, Function.update_self]
      exact hfed'
    · refine ⟨taken, queued, hsplit, ?_⟩
      simp only [System.setGroup, Function.update_of_ne hne]
      exact hfed

/-- No pass faults. -/
theorem Feeding.not_fault (h : Feeding nodes lowerLimits upperLimits oms₀ sys enqueued)
    (hband : ∀ s < totalSymbols, Band 10000 (lowerLimits s) (upperLimits s)) (hi : i < groupCount)
    (ho : Orderly sys.dispatchedOrders) (published : List Trade) : sys.fault i published =
    none := by
  obtain ⟨taken, queued, hsplit, hfed⟩ := h.groups i hi
  unfold System.fault
  dsimp only
  split_ifs
  · rfl
  · split
    next e order queue hstep hpop =>
      obtain ⟨g', -, -, hg', -⟩ := hfed.step hband hi (h.orderly ho hsplit) hpop
      rw [hstep] at hg'
      cases hg'
    next => rfl

theorem Feeding.step (h : Feeding nodes lowerLimits upperLimits oms₀ sys enqueued)
    (hband : ∀ s < totalSymbols, Band 10000 (lowerLimits s) (upperLimits s))
    (ho : Orderly sys.dispatchedOrders) {a : Action} (hstep : sys.step std a = some sys') :
    ∃ enqueued', Feeding nodes lowerLimits upperLimits oms₀ sys' enqueued' := by
  cases a with
  | enqueue => exact h.enqueue hstep
  | take i => exact ⟨enqueued, h.take hband i.isLt ho hstep⟩
  | fault i published =>
    have hnone := h.not_fault hband i.isLt ho published
    cases hnone.symm.trans hstep
  | publish i =>
    simp only [System.step, System.publish] at hstep
    split at hstep
    · obtain rfl := Option.some.inj hstep
      exact ⟨enqueued, h.of_same rfl rfl (processor_setGroup rfl)⟩
    · cases hstep
  | store i =>
    simp only [System.step, System.store] at hstep
    split at hstep
    · obtain rfl := Option.some.inj hstep
      exact ⟨enqueued, h.of_same rfl rfl (processor_setGroup rfl)⟩
    · cases hstep
  | _ =>
    simp only [System.step] at hstep
    split_ifs at hstep with hbox
    obtain ⟨oms, pc, rfl, hissues⟩ := issues_omsStep hstep
    exact ⟨enqueued, h.goOn hbox hissues pc⟩

theorem prefix_dispatchedOrders (h : Oms.Issues sys.oms sys'.oms) :
    sys.dispatchedOrders <+: sys'.dispatchedOrders :=
  (Oms.Issues.prefix_dispatched h).map _

theorem issues_run : ∀ {actions : List Action} {sys : System}, sys.run std actions = some sys' →
    Oms.Issues sys.oms sys'.oms
  | [], sys, h => by
    obtain rfl := Option.some.inj h
    exact .refl _
  | a :: actions, sys, h => by
    obtain ⟨sys₁, hstep, hrun⟩ := Option.bind_eq_some_iff.1 h
    exact (issues_step hstep).trans (issues_run hrun)

/-- A run whose dispatched orders are orderly feeds the groups. -/
theorem Feeding.run (hband : ∀ s < totalSymbols, Band 10000 (lowerLimits s) (upperLimits s))
    (ho : Orderly sys'.dispatchedOrders) : ∀ {actions : List Action} {sys : System}
    {enqueued : List Order}, Feeding nodes lowerLimits upperLimits oms₀ sys enqueued →
    sys.run std actions = some sys' →
      ∃ enqueued', Feeding nodes lowerLimits upperLimits oms₀ sys' enqueued'
  | [], sys, enqueued, h, hrun => by
    obtain rfl := Option.some.inj hrun
    exact ⟨enqueued, h⟩
  | a :: actions, sys, enqueued, h, hrun => by
    have hprefix := prefix_dispatchedOrders (issues_run hrun)
    obtain ⟨sys₁, hstep, hrest⟩ := Option.bind_eq_some_iff.1 hrun
    obtain ⟨enqueued₁, h₁⟩ := h.step hband (ho.sublist hprefix.sublist) hstep
    exact Feeding.run hband ho h₁ hrest

end Run

/-- In every state that the system reaches, while fewer than `2 ^ 62` ids have been issued and the
dispatched quantities are positive, the ids of the dispatched orders are distinct; the next order of
a group finds its book, the matching loop of its call makes progress, and the call returns. -/
theorem loops_progress (std : StdHeap ClientOrder) (symbolLookupTable : ℕ → ℤ)
    {bootTimestamp : ℕ} (clock uninit : ℕ → ℕ) {nodes : ℕ → ℕ → OrderNode}
    {lowerLimits upperLimits : ℕ → ℕ} {buffer : ℕ → Order} {capacity : ℕ}
    {groups : ℕ → GroupProcessor}
    (hgroups : ∀ i < groupCount, newGroup buffer capacity (fun s => ⟨nodes s, fun _ => 0⟩)
      lowerLimits upperLimits i = .ok (groups i))
    (hband : ∀ s < totalSymbols, Band 10000 (lowerLimits s) (upperLimits s))
    (hboot : bootTimestamp < 2 ^ 62) {actions : List Action} {sys : System}
    (hrun : (start (Oms.init symbolLookupTable bootTimestamp clock uninit) groups).run std actions =
      some sys)
    (hcount : sys.oms.dispatched.length < 2 ^ 62)
    (hquantity : ∀ d ∈ sys.oms.dispatched, 0 < d.order.quantity ∧ d.order.quantity < 2 ^ 32) :
    (sys.oms.dispatched.map fun d => d.order.orderId).Nodup ∧
      ∀ i < groupCount, ∀ order queue,
        (sys.groups i).processor.groupQueue.pop = .ok (some (order, queue)) →
        ∃ book book' executions,
          (sys.groups i).processor.bookmanager.get (order.symbolId % maxSymbols) = .ok book ∧
          CallProgresses book order ∧
          processOrder (sys.groups i).processor.nextTradeId book order =
            .ok (book', executions) := by
  have hids := (issues_run hrun).nodup hboot hcount
  have ho : Orderly sys.dispatchedOrders := by
    refine ⟨?_, fun o ho => ?_, fun o ho => ?_⟩
    · rw [dispatchedOrders, List.map_map]
      exact hids
    · obtain ⟨d, hd, rfl⟩ := List.mem_map.1 ho
      exact (hquantity d hd).1
    · obtain ⟨d, hd, rfl⟩ := List.mem_map.1 ho
      exact (hquantity d hd).2
  have hstart : Feeding nodes lowerLimits upperLimits
      (Oms.init symbolLookupTable bootTimestamp clock uninit)
      (start (Oms.init symbolLookupTable bootTimestamp clock uninit) groups) [] :=
    ⟨.refl _, rfl, fun i hi => ⟨[], [], rfl, fed_newGroup (hgroups i hi)⟩⟩
  obtain ⟨enqueued, hfeeding⟩ := hstart.run hband ho hrun
  refine ⟨hids, fun i hi order queue hpop => ?_⟩
  obtain ⟨taken, queued, hsplit, hfed⟩ := hfeeding.groups i hi
  have hgroup := hfeeding.orderly ho hsplit
  rcases hfed.queue.of_pop hpop with ⟨-, hnone⟩ | ⟨_, queued', _, rfl, hsome, -⟩
  · cases hnone
  · obtain ⟨rfl, -⟩ := Prod.mk.inj (Option.some.inj hsome)
    obtain ⟨book, book', executions, -, hget, hprogress, hcall, -⟩ := hfed.call hband hi hgroup
      (sys.groups i).processor.nextTradeId
    exact ⟨book, book', executions, hget, hprogress, hcall⟩

/-- The first slice of an iceberg, which rests. -/
def sliceActions : List Action :=
  [.receive (some ⟨7, 100, 0, [65], 0, 0, .sell, 10, 5, 0, .iceberg, true⟩), .enqueue,
    .take ⟨0, zero_lt_groupCount⟩]

/-- A buy that meets it. -/
def meetActions : List Action :=
  [.receive (some ⟨8, 101, 0, [65], 0, 0, .buy, 8, 0, 0, .limit, true⟩), .enqueue]

/-- Groups with the band from 95 to 105 for every symbol, in storage that is zero. -/
def sampleGroups (i : ℕ) : GroupProcessor :=
  (newGroup (fun _ => zeroOrder) 4 (fun _ => ⟨fun _ => ⟨zeroOrder, 0, 0⟩, fun _ => 0⟩)
    (fun _ => 95) (fun _ => 105) i).toOption.getD ⟨.new 0, .new (fun _ => zeroOrder) 4, 1, []⟩

/-- The slice is in the book and the buy in the queue, under different ids, and the loop of the next
call trades with the slice. -/
theorem loops_progress_metSlice : ∃ sys order queue book book' executions,
    (start (Oms.init (fun _ => 1) 0 id id) sampleGroups).run (.sorting _)
      (sliceActions ++ round ++ meetActions) = some sys ∧
    sys.oms.dispatched.length = 2 ∧ (sys.oms.dispatched.map fun d => d.order.orderId).Nodup ∧
    (sys.groups 0).processor.groupQueue.pop = .ok (some (order, queue)) ∧
    (sys.groups 0).processor.bookmanager.get (order.symbolId % maxSymbols) = .ok book ∧
    CallProgresses book order ∧
    processOrder (sys.groups 0).processor.nextTradeId book order = .ok (book', executions) ∧
    executions.map (fun e => e.trade.quantity) = [5] := by
  have hview : (do
      let sys₁ ← (start (Oms.init (fun _ => 1) 0 id id) sampleGroups).run (.sorting _)
        sliceActions
      let sys ← { sys₁ with pc := OmsPc.receive }.run (.sorting _) meetActions
      let next ← (sys.groups 0).processor.groupQueue.pop.toOption
      let popped ← next
      let book ←
        ((sys.groups 0).processor.bookmanager.get (popped.1.symbolId % maxSymbols)).toOption
      let called ←
        (processOrder (sys.groups 0).processor.nextTradeId book popped.1).toOption
      some (decide (sys₁.pc = .consume 0 ∧ sys₁.outbox = []),
        sys.oms.dispatched.map fun d => d.order.quantity,
        called.2.map fun e => e.trade.quantity)) = some (true, [5, 8], [5]) := by
    decide +kernel
  simp only [Option.bind_eq_bind, Option.bind_eq_some_iff, Option.some.injEq, Prod.mk.injEq,
    decide_eq_true_eq] at hview
  obtain ⟨sys₁, hslice, sys, hmeet, _, hpop, ⟨order, queue⟩, rfl, book, hget,
    ⟨book', executions⟩, hcall, ⟨hpc, hbox⟩, hquantities, htraded⟩ := hview
  -- the rest of the round finds nothing
  have hseen : Seen (start (Oms.init (fun _ => 1) 0 id id) sampleGroups) := fun _ => rfl
  obtain ⟨hround, -⟩ := hseen.run_round (by simp [sliceActions]) hslice hbox hpc
  have hrun : (start (Oms.init (fun _ => 1) 0 id id) sampleGroups).run (.sorting _)
      (sliceActions ++ round ++ meetActions) = some sys :=
    Runs.steps_iff_some.1 (Runs.steps_append.2
      ⟨_, Runs.steps_iff_some.2 hround, Runs.steps_iff_some.2 hmeet⟩)
  have hlength : sys.oms.dispatched.length = 2 := by
    rw [← List.length_map, hquantities]
    rfl
  have hgroups : ∀ i < groupCount, newGroup (fun _ => zeroOrder) 4
      (fun _ => ⟨fun _ => ⟨zeroOrder, 0, 0⟩, fun _ => 0⟩) (fun _ => 95) (fun _ => 105) i =
        .ok (sampleGroups i) := by
    intro i _
    obtain ⟨g, hg, -⟩ := newGroup_inv (fun _ _ => ⟨zeroOrder, 0, 0⟩) (fun _ => 95)
      (fun _ => 105) (fun _ => zeroOrder) 4 i
    rw [sampleGroups, hg, Except.toOption, Option.getD_some]
  obtain ⟨hids, hnext⟩ := loops_progress _ _ _ _ hgroups
    (fun _ _ => ⟨by decide, by decide, by decide, by decide, by decide, by decide⟩) (by decide)
      hrun
    (by rw [hlength]; decide) fun d hd => by
      have hmem := List.mem_map_of_mem (f := fun d => d.order.quantity) hd
      rw [hquantities] at hmem
      simp only [List.mem_cons, List.not_mem_nil, or_false] at hmem
      omega
  obtain ⟨found, _, _, hfound, hprogress, -⟩ := hnext 0 (by decide) order queue
    (ok_of_toOption hpop)
  obtain rfl := Except.ok.inj (hfound.symm.trans (ok_of_toOption hget))
  exact ⟨sys, order, queue, found, book', executions, hrun, hlength, hids, ok_of_toOption hpop,
    hfound, hprogress, ok_of_toOption hcall, htraded⟩

end System

end TradeX
