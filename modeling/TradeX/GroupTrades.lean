import TradeX.Progress
import TradeX.Library.Counts

/-!
# The trades of a group

What a `GroupProcessor` publishes, over all its symbols and in every order in which the threads
take turns. Every trade uses up an order : the head of the level, or the incoming one. So a group
never publishes more trades than it has taken orders, and those that still rest are not among the
orders used up (`trades_le_orders`). `next_trade_id` is one counter for all the symbols of the
group, and its trades are numbered from 1 without a gap.

`Shared P` says of the dispatcher that each group has taken the first of its orders and has the
next in its queue, in a state that `P` allows; what a push and a pass of a group's thread keep
holds after every run (`Shared.run`).
-/

namespace TradeX

open PriceTime MatchingEngineDispatcher

/-! ## One call -/

namespace PriceTime

/-- The trades of a fill, the orders it leaves at rest, and the incoming order if it has units
left. -/
def Fill.count (f : Fill) : ℕ :=
  f.executions.length + f.opposite.length + if 0 < f.order.quantity then 1 else 0

/-- A trade takes a resting order from the list, or is the last of the incoming order. -/
theorem fill_count {s : OrderType} {accepts : ℕ → Prop} [DecidablePred accepts] :
    ∀ (id : ℕ) (order : Order) (l : List Order),
      (fill s accepts id order l).count ≤ l.length + 1
  | _, order, [] => by
    rw [fill, Fill.count]
    split_ifs <;> simp
  | id, order, o :: l => by
    rw [fill]
    by_cases hc : 0 < order.quantity ∧ accepts o.price
    · rw [if_pos hc]
      by_cases hlt : order.quantity < o.quantity
      · rw [if_pos hlt]
        simp [Fill.count, Nat.add_comm]
      · have ih : (fill s accepts (nextTradeId id)
            { order with quantity := order.quantity - o.quantity } l).count ≤ l.length + 1 :=
          fill_count ..
        rw [if_neg hlt]
        simp only [Fill.count, List.length_cons] at ih ⊢
        omega
    · rw [if_neg hc]
      simp only [Fill.count, List.length_nil, List.length_cons]
      split_ifs <;> omega

theorem fillOf_count (R : Book) (id : ℕ) (order : Order) :
    (fillOf R id order).count ≤ (R order.type.opposite).length + 1 := by
  unfold fillOf
  by_cases hm : order.executionType = .market
  · simp only [if_pos hm]
    exact fill_count id order _
  · simp only [if_neg hm]
    exact fill_count id order _

theorem size_rest_le (capacity : ℕ) (t : OrderType) (o : Order) (R : Book) :
    (rest capacity t o R).size ≤ R.size + if 0 < o.quantity then 1 else 0 := by
  unfold rest
  split_ifs with hc hpos
  · have hold := size_eq R t
    rw [size_update, length_insert]
    omega
  · exact absurd hc.1 hpos
  all_goals omega

end PriceTime

/-- A call publishes no more trades than it uses up orders, of those that rest and the incoming
one. -/
theorem applyOn_count (b : OrderBook) (id : ℕ) (R : Book) (order : Order) :
    (applyOn b id R order).2.length + (applyOn b id R order).1.size ≤ R.size + 1 := by
  have hfill := fillOf_count R id order
  have hold := size_eq R order.type.opposite
  have hsize := size_update R order.type.opposite (fillOf R id order).opposite
  have hrest := size_rest_le b.pool.capacity (fillOf R id order).order.type
    (fillOf R id order).order (Function.update R order.type.opposite (fillOf R id order).opposite)
  unfold Fill.count at hfill
  simp only [applyOn]
  by_cases hm : order.executionType = .market
  · simp only [if_pos hm]
    omega
  · by_cases hv : b.isPriceValid order.price
    · simp only [if_neg hm, if_neg (not_not.2 hv), restOn]
      by_cases hl : b.hasLevel (b.priceToIndex (fillOf R id order).order.price)
      · simp only [if_pos hl]
        omega
      · simp only [if_neg hl]
        omega
    · simp [hm, hv]

theorem numberedFrom_applyOn (b : OrderBook) {id : ℕ} (hid : id < 2 ^ 64) (R : Book)
    (order : Order) : NumberedFrom id (applyOn b id R order).2 := by
  have hfill : NumberedFrom id (fillOf R id order).executions := by
    unfold fillOf
    dsimp only
    split_ifs <;> exact numberedFrom_fill id order _ hid
  unfold applyOn
  dsimp only
  split_ifs
  · exact hfill
  · exact hfill
  · exact fun _ _ he => by simp at he

/-- The orders that rest in the books of a group. -/
def GroupProcessor.resting (g : GroupProcessor) : ℕ :=
  ∑ k ∈ Finset.range maxSymbols, (g.bookmanager.books k).elim 0 fun book => book.pool.used

/-! ## A group -/

section Group

variable {nodes : ℕ → ℕ → OrderNode} {lowerLimits upperLimits : ℕ → ℕ} {i : ℕ}
  {g g' : GroupProcessor} {taken queued : List Order} {order : Order}

/-- The count of the resting orders after a book has changed. -/
theorem resting_set {k : ℕ} (hk : k < maxSymbols) {book : OrderBook} (book' : OrderBook)
    (hbook : g.bookmanager.books k = some book) :
    GroupProcessor.resting { g with bookmanager := g.bookmanager.set k book' } + book.pool.used =
      g.resting + book'.pool.used := by
  have hset : (g.bookmanager.set k book').books k = some book' := Function.update_self ..
  have hchange := Counts.sum_change (Finset.mem_range.2 hk)
    (f := fun j => ((g.bookmanager.set k book').books j).elim 0 fun book => book.pool.used)
    (g := fun j => (g.bookmanager.books j).elim 0 fun book => book.pool.used) fun j hj => by
      have hother : (g.bookmanager.set k book').books j = g.bookmanager.books j :=
        Function.update_of_ne hj ..
      rw [hother]
  simp only [hset, hbook, Option.elim_some] at hchange
  exact hchange

/-- What the call for the next order leaves in the book is less by its trades. -/
theorem Fed.count_call (h : Fed nodes lowerLimits upperLimits i g taken (order :: queued))
    (hband : ∀ s < totalSymbols, Band 10000 (lowerLimits s) (upperLimits s)) (hi : i < groupCount)
    (ho : Orderly (taken ++ order :: queued)) {id : ℕ} {book book' : OrderBook}
    {executions : List Execution}
    (hget : g.bookmanager.get (order.symbolId % maxSymbols) = .ok book)
    (hcall : processOrder id book order = .ok (book', executions)) :
    g.bookmanager.books (order.symbolId % maxSymbols) = some book ∧
      (id < 2 ^ 64 → NumberedFrom id executions) ∧
      executions.length + book'.pool.used ≤ book.pool.used + 1 := by
  have hk : order.symbolId % maxSymbols < maxSymbols := Nat.mod_lt _ (by decide)
  obtain ⟨book₁, R, hbook, hframe, hrep, hfrom⟩ := h.books _ hk
  have hget₁ : g.bookmanager.get (order.symbolId % maxSymbols) = .ok book₁ := by
    rw [OrderBookManager.get, h.maxBooks, if_neg (Nat.not_le.2 hk), hbook]
  obtain rfl : book₁ = book := Except.ok.inj (hget₁.symm.trans hget)
  have hsymbol : (i <<< symbolBits) + order.symbolId % maxSymbols < totalSymbols := by
    rw [Nat.shiftLeft_eq]
    simp only [totalSymbols, maxSymbols, groupCount, symbolBits] at hi hk ⊢
    omega
  have hmem : order ∈ taken ++ order :: queued := by simp
  have hadm := (hband _ hsymbol).admissible hframe (ho.positive order hmem)
  obtain ⟨book₂, hcall₂, -, hrep₂⟩ := (represents_iff.1 hrep).processOrder_spec
    (ho.inRange order hmem) (admissible_iff.1 hadm) (hfrom.fresh_of_nodup ho.ids) id
  obtain ⟨rfl, rfl⟩ := Prod.mk.inj (Except.ok.inj (hcall₂.symm.trans hcall))
  refine ⟨hbook, fun hid => numberedFrom_applyOn _ hid _ _, ?_⟩
  rw [hrep.used, hrep₂.used]
  exact applyOn_count _ _ _ _

/-- What a pass of a group's thread does : nothing, or it takes the next order and publishes the
trades of the call. -/
theorem Fed.pass (h : Fed nodes lowerLimits upperLimits i g taken queued)
    (hband : ∀ s < totalSymbols, Band 10000 (lowerLimits s) (upperLimits s)) (hi : i < groupCount)
    (ho : Orderly (taken ++ queued)) (hstep : g.step = .ok g') :
    queued = [] ∧ g' = g ∨ ∃ order queued' executions, queued = order :: queued' ∧
      Fed nodes lowerLimits upperLimits i g' (taken ++ [order]) queued' ∧
      g'.published = g.published ++ executions ∧
      g'.nextTradeId = add64 g.nextTradeId executions.length ∧
      (g.nextTradeId < 2 ^ 64 → NumberedFrom g.nextTradeId executions) ∧
      (∀ e ∈ executions, e.trade.symbolId = order.symbolId) ∧
      executions.length + g'.resting ≤ g.resting + 1 ∧
      g'.groupQueue.capacity = g.groupQueue.capacity := by
  obtain ⟨r, hpop, hrest⟩ := bind_eq_ok.1 hstep
  rcases h.queue.of_pop hpop with ⟨rfl, rfl⟩ | ⟨order, queued', queue, rfl, rfl, hqueue⟩
  · cases hrest
    exact Or.inl ⟨rfl, rfl⟩
  · obtain ⟨book, book', executions, R, hget, -, hcall, hframe, hrep, hfrom⟩ :=
      h.call hband hi ho g.nextTradeId
    obtain ⟨hbook, hnum, hused⟩ := h.count_call hband hi ho hget hcall
    obtain ⟨_, -, hsame⟩ := processOrder_congr 0 hcall
    obtain ⟨_, hget', hrest⟩ := bind_eq_ok.1 hrest
    obtain rfl := Except.ok.inj (hget.symm.trans hget')
    obtain ⟨_, hcall', hrest⟩ := bind_eq_ok.1 hrest
    obtain rfl := Except.ok.inj (hcall.symm.trans hcall')
    cases hrest
    have hk : order.symbolId % maxSymbols < maxSymbols := Nat.mod_lt _ (by decide)
    have hresting := resting_set (g := g) hk book' hbook
    refine Or.inr ⟨order, queued', executions, rfl, ⟨hqueue, h.maxBooks, fun k hk' => ?_⟩,
      rfl, rfl, hnum, hsame.symbol, ?_, RingBuffer.capacity_of_pop hpop⟩
    · rcases eq_or_ne k (order.symbolId % maxSymbols) with rfl | hne
      · exact ⟨book', R, Function.update_self .., hframe, hrep, hfrom⟩
      · obtain ⟨other, R', hother, hframe', hrep', hfrom'⟩ := h.books k hk'
        exact ⟨other, R', (Function.update_of_ne hne ..).trans hother, hframe', hrep',
          hfrom'.mono (List.subset_append_left _ _)⟩
    · change executions.length + GroupProcessor.resting { g with
        bookmanager := g.bookmanager.set (order.symbolId % maxSymbols) book' } ≤ _
      omega

/-- Group `i` has processed the orders `taken` and has the orders `queued` in its queue. Its trades
are numbered from 1, and each has used up an order of those taken. -/
structure Counted (nodes : ℕ → ℕ → OrderNode) (lowerLimits upperLimits : ℕ → ℕ)
    (i : ℕ) (g : GroupProcessor) (taken queued : List Order) : Prop where
  fed : Fed nodes lowerLimits upperLimits i g taken queued
  own : ∀ o ∈ queued, groupOf o.symbolId = i
  symbols : ∀ e ∈ g.published, groupOf e.trade.symbolId = i
  numbered : NumberedFrom 1 g.published
  next : g.nextTradeId = (1 + g.published.length) % 2 ^ 64
  count : g.published.length + g.resting ≤ taken.length

theorem Counted.push (h : Counted nodes lowerLimits upperLimits i g taken queued)
    (hown : groupOf order.symbolId = i) {queue : RingBuffer Order}
    (hqueue : queue.Holds (queued ++ [order])) :
    Counted nodes lowerLimits upperLimits i { g with groupQueue := queue } taken
      (queued ++ [order]) := by
  refine ⟨⟨hqueue, h.fed.maxBooks, h.fed.books⟩, fun o ho => ?_, h.symbols, h.numbered,
    h.next, h.count⟩
  rcases List.mem_append.1 ho with ho | ho
  · exact h.own o ho
  · rw [List.mem_singleton.1 ho]
    exact hown

/-- A pass of a group's thread. -/
theorem Counted.step (h : Counted nodes lowerLimits upperLimits i g taken queued)
    (hband : ∀ s < totalSymbols, Band 10000 (lowerLimits s) (upperLimits s)) (hi : i < groupCount)
    (ho : Orderly (taken ++ queued)) (hstep : g.step = .ok g') :
    ∃ taken' queued', taken' ++ queued' = taken ++ queued ∧
      Counted nodes lowerLimits upperLimits i g' taken' queued' := by
  rcases h.fed.pass hband hi ho hstep with ⟨rfl, rfl⟩ | ⟨order, queued', executions, rfl,
    hfed, hpub, hnext, hnum, hsymbol, hresting, -⟩
  · exact ⟨taken, [], rfl, h⟩
  · have hid : g.nextTradeId < 2 ^ 64 := by
      rw [h.next]
      exact Nat.mod_lt _ (by decide)
    refine ⟨taken ++ [order],
      queued', by simp, hfed, fun o ho => h.own o (List.mem_cons_of_mem _ ho),
      fun e he => ?_, ?_, ?_, ?_⟩
    · rcases List.mem_append.1 (hpub ▸ he) with he | he
      · exact h.symbols e he
      · rw [hsymbol e he]
        exact h.own order List.mem_cons_self
    · rw [hpub]
      exact numberedFrom_append h.numbered (h.next ▸ hnum hid)
    · simp only [hpub, hnext, add64, h.next, List.length_append]
      omega
    · have hcount := h.count
      simp only [hpub, List.length_append, List.length_singleton]
      omega

/-- What `initialize_engine` leaves. -/
theorem counted_newGroup {buffer : ℕ → Order} {capacity : ℕ}
    (hg : newGroup buffer capacity (fun s => ⟨nodes s, fun _ => 0⟩) lowerLimits upperLimits i =
      .ok g) :
    Counted nodes lowerLimits upperLimits i g [] [] := by
  have hfed := fed_newGroup hg
  obtain ⟨m, hm, -, hbooks⟩ :=
    addBooks_eq (fun s => ⟨nodes s, fun _ => 0⟩) lowerLimits upperLimits (i <<< symbolBits)
  rw [newGroup, hm, ok_bind] at hg
  obtain rfl := Except.ok.inj hg
  refine ⟨hfed, List.forall_mem_nil _, List.forall_mem_nil _,
    fun _ _ he => by simp at he, rfl, ?_⟩
  have hempty : GroupProcessor.resting ⟨m, .new buffer capacity, 1, []⟩ = 0 := by
    refine Finset.sum_eq_zero fun k hk => ?_
    simp only [hbooks k (Finset.mem_range.1 hk)]
    rfl
  simp [hempty]

end Group

/-! ## All groups -/

/-- Each group has taken the first of its orders that have been dispatched and has the next in its
queue, in a state that `P` allows. -/
def Shared (P : ℕ → GroupProcessor → List Order → List Order → Prop) (orders : List Order)
    (d : MatchingEngineDispatcher) : Prop :=
  ∃ done, done ++ d.orders = orders ∧ ∀ i < groupCount, ∃ taken queued,
    taken ++ queued = done.filter (fun o => groupOf o.symbolId = i) ∧
      P i (d.groups i) taken queued

section Shared

variable {P : ℕ → GroupProcessor → List Order → List Order → Prop} {orders : List Order}
  {d d' : MatchingEngineDispatcher}

/-- A try to dispatch the next order. -/
theorem Shared.dispatchOrder (h : Shared P orders d)
    (hqueue : ∀ {i g taken queued}, P i g taken queued → g.groupQueue.Holds queued)
    (hpush : ∀ {i g taken queued order queue}, P i g taken queued →
      groupOf order.symbolId = i → queue.Holds (queued ++ [order]) →
        P i { g with groupQueue := queue } taken (queued ++ [order]))
    (hstep : d.dispatchOrder = .ok d') : Shared P orders d' := by
  obtain ⟨done, horders, hgroups⟩ := h
  rw [MatchingEngineDispatcher.dispatchOrder] at hstep
  split at hstep
  next => cases hstep; exact ⟨done, horders, hgroups⟩
  next order rest heq =>
    obtain ⟨⟨accepted, queue⟩, hpushed, hstep⟩ := bind_eq_ok.1 hstep
    cases hstep
    obtain ⟨taken, queued, -, hg⟩ := hgroups _ (groupOf_lt order.symbolId)
    rcases (hqueue hg).of_push hpushed with ⟨rfl, rfl, -⟩ | ⟨rfl, -⟩
    · refine ⟨done, by rw [← horders, heq]; rfl, fun i hi => ?_⟩
      rw [Function.update_eq_self]
      exact hgroups i hi
    · refine ⟨done ++ [order], by rw [← horders, heq]; simp,
        exists_split_concat hgroups (fun taken queued hg => ?_) fun i hne taken queued hg => ?_⟩
      · simp only [Function.update_self]
        exact hpush hg rfl ((hqueue hg).of_accepted hpushed)
      · simp only [Function.update_of_ne hne]
        exact hg

/-- What a push and a pass of a group's thread keep holds after every run. -/
theorem Shared.run (hqueue : ∀ {i g taken queued}, P i g taken queued →
    g.groupQueue.Holds queued)
    (hpush : ∀ {i g taken queued order queue}, P i g taken queued →
      groupOf order.symbolId = i → queue.Holds (queued ++ [order]) →
        P i { g with groupQueue := queue } taken (queued ++ [order]))
    (hpass : ∀ {i g g' taken queued}, i < groupCount → P i g taken queued →
      (taken ++ queued).Sublist orders → g.step = .ok g' →
        ∃ taken' queued', taken' ++ queued' = taken ++ queued ∧ P i g' taken' queued')
    {schedule : List Thread} (h : Shared P orders d) (hrun : d.run schedule = .ok d') :
    Shared P orders d' := by
  have hsteps : Runs.Steps (fun d t d' => MatchingEngineDispatcher.step d t = .ok d') schedule d
      d' :=
    Runs.steps_iff_ok.2 hrun
  refine hsteps.invariant (I := Shared P orders) (P := fun _ _ => True)
    (fun {d t d'} h _ hstep => ?_) h (.of_forall_mem fun _ _ _ => trivial)
  cases t with
  | dispatcher => exact h.dispatchOrder hqueue hpush hstep
  | group i =>
    obtain ⟨done, horders, hgroups⟩ := h
    obtain ⟨g, hg, hstep⟩ := bind_eq_ok.1 hstep
    cases hstep
    refine ⟨done, horders, fun j hj => ?_⟩
    obtain ⟨taken, queued, hsplit, hP⟩ := hgroups j hj
    rcases eq_or_ne j i with rfl | hne
    · have hsub : (taken ++ queued).Sublist orders := by
        rw [hsplit, ← horders]
        exact List.filter_sublist.trans (List.sublist_append_left _ _)
      obtain ⟨taken', queued', hsplit', hP'⟩ := hpass hj hP hsub hg
      simp only [Function.update_self]
      exact ⟨taken', queued', hsplit'.trans hsplit, hP'⟩
    · simp only [Function.update_of_ne hne]
      exact ⟨taken, queued, hsplit, hP⟩

end Shared

section Session

variable {lowerLimits upperLimits : ℕ → ℕ} {orders : List Order}

/-- Every run of the engine keeps the counts of its groups. -/
theorem shared_counted (nodes : ℕ → ℕ → OrderNode)
    (hband : ∀ s < totalSymbols, Band 10000 (lowerLimits s) (upperLimits s))
    (buffer : ℕ → Order) (capacity : ℕ) (ho : Orderly orders) :
    ∃ d₀, initializeEngine buffer capacity (fun s => ⟨nodes s, fun _ => 0⟩)
        lowerLimits upperLimits orders = .ok d₀ ∧
      ∀ schedule d, d₀.run schedule = .ok d →
        Shared (Counted nodes lowerLimits upperLimits) orders d := by
  obtain ⟨g₀, h₀, -⟩ := newGroup_inv nodes lowerLimits upperLimits buffer capacity 0
  obtain ⟨g₁, h₁, -⟩ := newGroup_inv nodes lowerLimits upperLimits buffer capacity 1
  refine ⟨_, by rw [initializeEngine, h₀, ok_bind, h₁, ok_bind], fun schedule d hrun => ?_⟩
  refine Shared.run (fun h => h.fed.queue) (fun h hown hqueue => h.push hown hqueue)
    (fun hi h hsub hstep => h.step hband hi (ho.sublist hsub) hstep) ?_ hrun
  refine ⟨[], rfl, fun i hi => ⟨[], [], rfl, ?_⟩⟩
  rcases Nat.lt_or_ge i 1 with hlt | hge
  · rw [Nat.lt_one_iff.1 hlt]
    exact counted_newGroup h₀
  · rw [show i = 1 from le_antisymm (Nat.le_of_lt_succ hi) hge]
    exact counted_newGroup h₁

end Session

theorem orderly_twoSymbols : Orderly twoSymbols :=
  ⟨by decide, by decide, by decide⟩

theorem band_sample : ∀ s < totalSymbols, Band 10000 95 105 :=
  fun _ _ => ⟨by decide, by decide, by decide, by decide, by decide, by decide⟩

end TradeX
